import TradeRules.Proofs.Double.Whole

/-!
# What the operations compute, exactly

Two finite doubles are `Alike` when they stand for the same number.  They are equal doubles, or the
two zeros.  Every operation of a rule takes alike operands to alike results, since it rounds the
exact result, and a comparison or a test for truth does not tell alike numbers apart.

Comparisons of literals order the exact numbers.  They agree with comparisons of the doubles when the
whole numbers among the literals are exactly representable.
-/

namespace TradeRules

open Double

variable {x y x' y' : Float}

/-! ## Alike doubles -/

/-- Two finite doubles that stand for the same number. -/
structure Alike (x y : Float) : Prop where
  left : x.isFinite = true
  right : y.isFinite = true
  exact_eq : exact x = exact y

namespace Alike

theorem refl (hx : x.isFinite = true) : Alike x x :=
  ⟨hx, hx, rfl⟩

/-- Alike doubles are equal as numbers. -/
theorem beq (h : Alike x y) : (x == y) = true :=
  (beq_iff_exact h.left h.right).mpr h.exact_eq

/-- Alike doubles are the same, or both zero. -/
theorem eq_or_zero (h : Alike x y) : x = y ∨ exact x = 0 ∧ exact y = 0 := by
  by_cases hz : exact x = 0
  · exact .inr ⟨hz, h.exact_eq ▸ hz⟩
  · exact .inl (eq_of_exact_eq h.exact_eq hz)

/-- Roundings of the same number are alike. -/
theorem of_isRounding {q : ℚ} (hx : IsRounding x q) (hy : IsRounding y q)
    (hf : x.isFinite = true) : Alike x y :=
  ⟨hf, (hx.congr hy hf).1, (hx.congr hy hf).2.symm⟩

theorem settle (k : Kind) (h : Alike x y) : Alike (k.settle x) (k.settle y) := by
  have hx := k.settle_exact h.left
  have hy := k.settle_exact h.right
  exact ⟨hx.1, hy.1, by rw [hx.2, hy.2, h.exact_eq]⟩

theorem truncate (h : Alike x y) : Double.truncate x = Double.truncate y := by
  rw [truncate_eq h.left, truncate_eq h.right, h.exact_eq]

end Alike

/-! ## Arithmetic -/

/-- The exact result of an arithmetic operation. -/
def Arithmetic.exactly : Arithmetic → ℚ → ℚ → ℚ
  | .add, p, q => p + q
  | .subtract, p, q => p - q
  | .multiply, p, q => p * q
  | .divide, p, q => if q = 0 then 0 else p / q

/-- Arithmetic on finite doubles rounds the exact result. -/
theorem Arithmetic.apply_isRounding (op : Arithmetic) (hx : x.isFinite = true)
    (hy : y.isFinite = true) : IsRounding (op.apply x y) (op.exactly (exact x) (exact y)) := by
  cases op with
  | add => exact add_isRounding hx hy
  | subtract => exact sub_isRounding hx hy
  | multiply => exact mul_isRounding hx hy
  | divide =>
    have hzero : (y == 0.0) = true ↔ exact y = 0 := by
      rw [beq_iff_exact hy zero_exact.1, zero_exact.2]
    unfold Arithmetic.apply Arithmetic.exactly
    simp only [hzero]
    split_ifs with hz
    · have h := ofScientific_isRounding 0 true 1
      rwa [show scientific 0 true 1 = 0 by norm_num [scientific]] at h
    · exact div_isRounding hx hy hz

theorem Arithmetic.apply_alike (op : Arithmetic) (hx : Alike x x') (hy : Alike y y')
    (hf : (op.apply x y).isFinite = true) : Alike (op.apply x y) (op.apply x' y') := by
  have h := op.apply_isRounding hx.right hy.right
  rw [← hx.exact_eq, ← hy.exact_eq] at h
  exact Alike.of_isRounding (op.apply_isRounding hx.left hy.left) h hf

/-- Shares in percent of alike numbers are alike. -/
theorem percentOf_alike (hx : Alike x x') (hy : Alike y y')
    (hf : (percentOf x y).isFinite = true) : Alike (percentOf x y) (percentOf x' y') := by
  have hne : exact (100.0 : Float) ≠ 0 := by
    rw [hundred_exact.2]
    norm_num
  have hprod := (isFinite_of_div hf).1
  have hmul := Arithmetic.apply_alike .multiply hx hy hprod
  have h := div_isRounding hmul.right hundred_exact.1 hne
  rw [← hmul.exact_eq] at h
  exact Alike.of_isRounding (div_isRounding hmul.left hundred_exact.1 hne) h hf

/-- Roots of alike numbers are the same. -/
theorem positiveRoot_alike (h : Alike x x') : positiveRoot x = positiveRoot x' := by
  rcases h.eq_or_zero with rfl | ⟨hx, hx'⟩
  · rfl
  · have hnot : ∀ z : Float, z.isFinite = true → exact z = 0 → ¬(0.0 : Float) < z := by
      intro z hz hzero
      rw [lt_iff_exact zero_exact.1 hz, zero_exact.2, hzero]
      exact lt_irrefl 0
    unfold positiveRoot
    rw [if_neg (hnot x h.left hx), if_neg (hnot x' h.right hx')]

theorem abs_alike (h : Alike x x') : Alike x.abs x'.abs := by
  have hx := abs_exact h.left
  have hx' := abs_exact h.right
  exact ⟨hx.1, hx'.1, by rw [hx.2, hx'.2, h.exact_eq]⟩

/-! ## Comparisons and truth -/

/-- A comparison of finite doubles compares the exact numbers. -/
theorem Comparison.holds_eq (op : Comparison) (hx : x.isFinite = true) (hy : y.isFinite = true) :
    op.holds x y = op.holdsOf (cmp (exact x) (exact y)) := by
  have hlt : x < y ↔ cmp (exact x) (exact y) = .lt := by
    rw [lt_iff_exact hx hy, cmp_eq_lt_iff]
  have hgt : y < x ↔ cmp (exact x) (exact y) = .gt := by
    rw [lt_iff_exact hy hx, cmp_eq_gt_iff]
  have hle : x ≤ y ↔ cmp (exact x) (exact y) ≠ .gt := by
    rw [le_iff_exact hx hy, Ne, cmp_eq_gt_iff, not_lt]
  have hge : y ≤ x ↔ cmp (exact x) (exact y) ≠ .lt := by
    rw [le_iff_exact hy hx, Ne, cmp_eq_lt_iff, not_lt]
  have heq : (x == y) = (cmp (exact x) (exact y) == .eq) := by
    rw [Bool.eq_iff_iff, beq_iff_exact hx hy, ← cmp_eq_eq_iff]
    simp
  generalize cmp (exact x) (exact y) = o at *
  cases op <;> cases o <;> simp [holds, holdsOf, bne, hlt, hgt, hle, hge, heq]

theorem Comparison.holds_alike (op : Comparison) (hx : Alike x x') (hy : Alike y y') :
    op.holds x y = op.holds x' y' := by
  rw [op.holds_eq hx.left hy.left, op.holds_eq hx.right hy.right, hx.exact_eq, hy.exact_eq]

/-- Comparisons that are true of a number and itself are true of alike numbers. -/
theorem Comparison.holds_of_alike (op : Comparison) (h : Alike x y) :
    op.holds x y = op.reflexive := by
  rw [op.holds_eq h.left h.right, h.exact_eq, cmp_self_eq_eq]
  rfl

theorem Comparison.holds_negation (op : Comparison) (hx : x.isFinite = true)
    (hy : y.isFinite = true) : op.negation.holds x y = !op.holds x y := by
  rw [op.holds_eq hx hy, op.negation.holds_eq hx hy, op.holdsOf_negation]

theorem Truth.level_isFinite : Truth.level.isFinite = true := by
  decide +kernel

/-- Alike numbers have the same truth. -/
theorem Truth.holds_alike (h : Alike x y) : Truth.holds x = Truth.holds y := by
  unfold Truth.holds
  simp only [le_iff_exact Truth.level_isFinite h.left, le_iff_exact Truth.level_isFinite h.right,
    h.exact_eq]

theorem Truth.toNumber_isFinite (b : Bool) : (Truth.toNumber b).isFinite = true := by
  cases b
  · exact zero_exact.1
  · exact one_exact.1

@[simp] theorem Truth.holds_toNumber (b : Bool) : Truth.holds (Truth.toNumber b) = b := by
  revert b
  decide +kernel

/-! ## Comparisons of literals -/

/-- Whether the double of a whole number is that number exactly. -/
def Literal.IsExact : Literal → Prop
  | .whole n _ => truncate (ofInt n) = n
  | .real _ _ => True

/-- The number that a literal stands for. -/
def Literal.exactly : Literal → ℚ
  | .whole n _ => n
  | .real x _ => exact x

theorem Literal.toDouble_isFinite (l : Literal) : l.toDouble.isFinite = true := by
  cases l with
  | whole n h => exact h
  | real x h => exact h

/-- The double of a representable literal stands for its number. -/
theorem Literal.exact_toDouble {l : Literal} (h : l.IsExact) : exact l.toDouble = l.exactly := by
  cases l with
  | whole n hf =>
    -- The number is its own integer part, so it lies on the grid.
    have hgrid : nearest (n : ℚ) = n := by
      have := nearest_truncate (ofInt n)
      rwa [show truncate (ofInt n) = n from h] at this
    rw [Literal.toDouble, (ofInt_isRounding n).value hf, hgrid]
    rfl
  | real x hf => rfl

theorem towardZero_lt_of_lt {n : ℤ} {q : ℚ} (h : n < towardZero q) : (n : ℚ) < q := by
  unfold towardZero at h
  split_ifs at h with hq
  · have : (n : ℚ) < ⌊q⌋ := by exact_mod_cast h
    exact this.trans_le (Int.floor_le q)
  · have h1 : (n : ℚ) ≤ -⌊-q⌋ - 1 := by
      have : n ≤ -⌊-q⌋ - 1 := by omega
      exact_mod_cast this
    have h2 := Int.lt_floor_add_one (-q)
    linarith

theorem lt_of_towardZero_lt {n : ℤ} {q : ℚ} (h : towardZero q < n) : q < n := by
  have hneg : -n < towardZero (-q) := by
    rw [towardZero_neg]
    omega
  have := towardZero_lt_of_lt hneg
  push_cast at this
  linarith

theorem Literal.orderDoubles_eq (hx : x.isFinite = true) (hy : y.isFinite = true) :
    orderDoubles x y = cmp (exact x) (exact y) := by
  unfold orderDoubles
  simp only [lt_iff_exact hx hy, lt_iff_exact hy hx]
  rcases lt_trichotomy (exact x) (exact y) with h | h | h
  · rw [if_pos h, (cmp_eq_lt_iff _ _).mpr h]
  · rw [h, if_neg (lt_irrefl _), if_neg (lt_irrefl _), cmp_self_eq_eq]
  · rw [if_neg h.le.not_gt, if_pos h, (cmp_eq_gt_iff _ _).mpr h]

/-- The integer part decides between a whole number and a double, then the fraction does. -/
theorem Literal.orderMixed_eq (n : ℤ) (hx : x.isFinite = true) :
    orderMixed n x = cmp (n : ℚ) (exact x) := by
  have hsame : orderDoubles (ofInt (truncate x)) x = cmp (towardZero (exact x) : ℚ) (exact x) := by
    rw [orderDoubles_eq (ofInt_truncate hx).1 hx, (ofInt_truncate hx).2]
  unfold orderMixed
  simp only [hsame]
  rw [truncate_eq hx]
  split_ifs with h1 h2
  · rw [(cmp_eq_lt_iff _ _).mpr (towardZero_lt_of_lt h1)]
  · rw [(cmp_eq_gt_iff _ _).mpr (lt_of_towardZero_lt h2)]
  · rw [show towardZero (exact x) = n by omega]

/-- Literals are ordered as the numbers they stand for. -/
theorem Literal.order_eq (l m : Literal) : l.order m = cmp l.exactly m.exactly := by
  cases l with
  | whole n hn =>
    cases m with
    | whole k hk =>
      rcases lt_trichotomy n k with h | rfl | h
      · rw [Literal.order, compare_lt_iff_lt.mpr h]
        exact ((cmp_eq_lt_iff (n : ℚ) k).mpr (by exact_mod_cast h)).symm
      · rw [Literal.order, compare_eq_iff_eq.mpr rfl]
        exact (cmp_self_eq_eq _).symm
      · rw [Literal.order, compare_gt_iff_gt.mpr h]
        exact ((cmp_eq_gt_iff (n : ℚ) k).mpr (by exact_mod_cast h)).symm
    | real y hy => exact orderMixed_eq n hy
  | real x hx =>
    cases m with
    | whole k hk =>
      rw [Literal.order, orderMixed_eq k hx, cmp_swap]
      rfl
    | real y hy => exact orderDoubles_eq hx hy

/-- A comparison of representable literals is a comparison of their doubles. -/
theorem Literal.holdsOf_order (op : Comparison) {l m : Literal} (hl : l.IsExact) (hm : m.IsExact) :
    op.holdsOf (l.order m) = op.holds l.toDouble m.toDouble := by
  rw [op.holds_eq l.toDouble_isFinite m.toDouble_isFinite, Literal.exact_toDouble hl,
    Literal.exact_toDouble hm, Literal.order_eq]

end TradeRules
