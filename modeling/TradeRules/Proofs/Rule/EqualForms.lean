import TradeRules.Proofs.Rule.EqualValues
import TradeRules.Proofs.Rule.Simplify

/-!
# Simplified forms of equal trees

Trees that are the same have simplified forms that are the same (`same_forms`).  Every rule takes
equal operands to equal results (`reduceNot_congr`, `reduceComparison_congr`, and so on).  The rules of
the commutative operations give equal results in either order of the operands, though they look at
them in a fixed order (`reduceArithmetic_comm`, `reduceComparison_comm`, `reduceConnective_comm`).

The order would show where either operand could be kept, as in a product of two literals that are both
one.  They are of one kind and so they are equal.  A choice that keeps its first branch, and a
connective that keeps its first operand, do so only when the other is equal.
-/

namespace TradeRules

open Double

variable {x y : Float} {k : Kind} {l l' m m' n : Literal}

/-! ## Literals -/

namespace Literal

theorem exactly_of_same (h : m.same n = true) : m.exactly = n.exactly := by
  cases m with
  | whole m hm =>
    cases n with
    | whole n hn =>
      obtain rfl : m = n := by simpa [Literal.same] using h
      rfl
    | real y hy => cases h
  | real x hx =>
    cases n with
    | whole n hn => cases h
    | real y hy => exact (beq_iff_exact hx hy).mp h

theorem order_of_same (hl : l.same l' = true) (hm : m.same m' = true) :
    l.order m = l'.order m' := by
  rw [order_eq, order_eq, exactly_of_same hl, exactly_of_same hm]

theorem isExactly_of_same (h : m.same n = true) (i : ℕ) : m.isExactly i = n.isExactly i := by
  cases m with
  | whole m hm =>
    cases n with
    | whole n hn =>
      obtain rfl : m = n := by simpa [Literal.same] using h
      rfl
    | real y hy => cases h
  | real x hx =>
    cases n with
    | whole n hn => cases h
    | real y hy => exact (upToSign_of_same h).beq_eq (.refl _)

/-- Literals of one kind that are the same small number are the same. -/
theorem same_of_isExactly {i : ℕ} (hkind : m.kind = n.kind) (hm : m.isExactly i = true)
    (hn : n.isExactly i = true) : m.same n = true := by
  cases m with
  | whole m _ =>
    cases n with
    | whole n _ => exact beq_iff_eq.mpr ((beq_iff_eq.mp hm).trans (beq_iff_eq.mp hn).symm)
    | real y _ => cases hkind
  | real x _ =>
    cases n with
    | whole n _ => cases hkind
    | real y _ => exact beq_of_beq hm hn

/-- Numbers that are equal up to the sign of zero give the same literals, or neither gives one. -/
theorem ofKind?_congr (k : Kind) (h : UpToSign x y) :
    Option.Rel (fun m n => m.same n = true) (ofKind? k x) (ofKind? k y) := by
  cases k with
  | integer =>
    show Option.Rel _ (if x.isFinite then ofInt? (truncate x) else none)
      (if y.isFinite then ofInt? (truncate y) else none)
    rw [← h.isFinite_eq]
    split_ifs with hx
    · rw [(h.alike hx).truncate]
      cases ofInt? (truncate y) with
      | none => exact .none
      | some m => exact .some (same_refl m)
    · exact .none
  | float =>
    show Option.Rel _ (ofDouble? x) (ofDouble? y)
    unfold ofDouble?
    split_ifs with hx hy hy
    · exact .some (h.alike hx).beq
    · exact absurd (h.isFinite_eq ▸ hx) hy
    · exact absurd (h.isFinite_eq.symm ▸ hy) hx
    · exact .none
  | boolean | integerQuote | floatQuote => exact .none

end Literal

namespace Comparison

/-- The tests for equal and unequal do not depend on the order. -/
theorem holdsOf_swap {op : Comparison} (hop : (Binary.comparison op).commutative = true)
    (o : Ordering) : op.holdsOf o.swap = op.holdsOf o := by
  cases op with
  | equal => cases o <;> rfl
  | notEqual => cases o <;> rfl
  | less | greater | lessEqual | greaterEqual => cases hop

theorem commutative_negation {op : Comparison} (hop : (Binary.comparison op).commutative = true) :
    (Binary.comparison op.negation).commutative = true := by
  cases op with
  | equal | notEqual => rfl
  | less | greater | lessEqual | greaterEqual => cases hop

end Comparison

namespace Expr

variable {a a' b b' c c' d d' e : Expr} {j : Kind}

/-! ## What rules look at -/

theorem same_congr (ha : Equal a a') (hb : Equal b b') : a.same b = a'.same b' := by
  rw [Bool.eq_iff_iff, same_iff, same_iff]
  exact ⟨fun h => (ha.symm.trans h).trans hb, fun h => (ha.trans h).trans hb.symm⟩

theorem Equal.number (h : Equal (number m) b) : ∃ n, b = number n ∧ m.same n = true :=
  number_of_same (same_iff.mpr h)

theorem Equal.truth {t : Bool} (h : Equal (truth t) b) : b = truth t := by
  cases h with
  | leaf h =>
    rcases Leaf.eq_or_number_of_same h with rfl | ⟨m, n, hm, -⟩
    · rfl
    · cases hm

theorem equal_number (h : m.same n = true) : Equal (number m) (number n) :=
  .leaf h

theorem isNumber_congr (h : Equal a b) (i : ℕ) : a.isNumber i = b.isNumber i := by
  cases h with
  | leaf h =>
    rcases Leaf.eq_or_number_of_same h with rfl | ⟨m, n, rfl, rfl, hmn⟩
    · rfl
    · exact Literal.isExactly_of_same hmn i
  | unary | binary | exchange | ternary | quaternary => rfl

/-- Trees of one kind that are the same small number are equal. -/
theorem equal_of_isNumber {i : ℕ} (ka : a.HasKind j) (kb : b.HasKind j) (ha : a.isNumber i = true)
    (hb : b.isNumber i = true) : Equal a b := by
  obtain ⟨m, rfl⟩ : ∃ m, a = .number m := by
    unfold isNumber at ha
    split at ha
    · exact ⟨_, rfl⟩
    · cases ha
  obtain ⟨n, rfl⟩ : ∃ n, b = .number n := by
    unfold isNumber at hb
    split at hb
    · exact ⟨_, rfl⟩
    · cases hb
  have hkind : m.kind = n.kind := (hasKind_number.mp ka).trans (hasKind_number.mp kb).symm
  exact equal_number (Literal.same_of_isExactly hkind ha hb)

/-- A small literal depends on the kind only. -/
theorem smallLike_eq (ka : a.HasKind j) (kb : b.HasKind j) (i : ℕ) :
    smallLike i a = smallLike i b := by
  unfold smallLike
  rw [ka.declaredKind, kb.declaredKind]

/-- Whether both operands are literals. -/
def AreNumbers (a b : Expr) : Prop :=
  ∃ l m, a = .number l ∧ b = .number m

theorem AreNumbers.congr (ha : Equal a a') (hb : Equal b b') (h : AreNumbers a b) :
    AreNumbers a' b' := by
  obtain ⟨l, m, rfl, rfl⟩ := h
  obtain ⟨l', rfl, -⟩ := ha.number
  obtain ⟨m', rfl, -⟩ := hb.number
  exact ⟨l', m', rfl, rfl⟩

theorem AreNumbers.swap (h : AreNumbers a b) : AreNumbers b a := by
  obtain ⟨l, m, rfl, rfl⟩ := h
  exact ⟨m, l, rfl, rfl⟩

/-! ## Folding -/

theorem fold_congr (hlm : l.same m = true) (h : UpToSign x y) :
    Option.Rel Equal (l.fold x) (m.fold y) := by
  unfold Literal.fold
  rw [(Literal.alike_of_same hlm).1]
  have hrel := Literal.ofKind?_congr m.kind h
  generalize Literal.ofKind? m.kind x = o, Literal.ofKind? m.kind y = o' at hrel
  cases hrel with
  | none => exact .none
  | some h => exact .some (equal_number h)

theorem getD_congr {o o' : Option Expr} (h : Option.Rel Equal o o') (he : Equal a b) :
    Equal (o.getD a) (o'.getD b) := by
  cases h with
  | none => exact he
  | some h => exact h

theorem foldArithmetic_of_not {op : Arithmetic} (h : ¬AreNumbers a b) :
    foldArithmetic op a b = none := by
  unfold foldArithmetic
  split
  · exact absurd ⟨_, _, rfl, rfl⟩ h
  · rfl

theorem foldArithmetic_congr (op : Arithmetic) (ha : Equal a a') (hb : Equal b b') :
    Option.Rel Equal (foldArithmetic op a b) (foldArithmetic op a' b') := by
  by_cases hnum : AreNumbers a b
  · obtain ⟨l, m, rfl, rfl⟩ := hnum
    obtain ⟨l', rfl, hl⟩ := ha.number
    obtain ⟨m', rfl, hm⟩ := hb.number
    exact fold_congr hl
      (op.apply_upToSign (Literal.upToSign_of_same hl) (Literal.upToSign_of_same hm))
  · rw [foldArithmetic_of_not hnum,
      foldArithmetic_of_not fun h => hnum (h.congr ha.symm hb.symm)]
    exact .none

theorem foldArithmetic_comm {op : Arithmetic} (hop : (Binary.arithmetic op).commutative = true)
    (ka : a.HasKind j) (kb : b.HasKind j) : foldArithmetic op a b = foldArithmetic op b a := by
  by_cases hnum : AreNumbers a b
  · obtain ⟨l, m, rfl, rfl⟩ := hnum
    show l.fold _ = m.fold _
    unfold Literal.fold
    rw [hasKind_number.mp ka, hasKind_number.mp kb, op.apply_swap hop]
  · rw [foldArithmetic_of_not hnum, foldArithmetic_of_not fun h => hnum h.swap]

theorem reduceFunction_congr {op : Unary} {f : Float → Float}
    (hf : ∀ {x y}, UpToSign x y → UpToSign (f x) (f y)) (h : Equal a b) :
    Equal (reduceFunction op f a) (reduceFunction op f b) := by
  cases h with
  | leaf h =>
    rcases Leaf.eq_or_number_of_same h with rfl | ⟨m, n, rfl, rfl, hmn⟩
    · exact .refl _
    · exact getD_congr (fold_congr hmn (hf (Literal.upToSign_of_same hmn)))
        (.unary op (equal_number hmn))
  | unary op' ha => exact .unary op (.unary op' ha)
  | binary op' ha hb => exact .unary op (.binary op' ha hb)
  | exchange hop ha hb => exact .unary op (.exchange hop ha hb)
  | ternary op' ha hb hc => exact .unary op (.ternary op' ha hb hc)
  | quaternary op' ha hb hc hd => exact .unary op (.quaternary op' ha hb hc hd)

theorem reducePercent_of_not (h : ¬AreNumbers a b) : reducePercent a b = .binary .percent a b := by
  unfold reducePercent
  split
  · exact absurd ⟨_, _, rfl, rfl⟩ h
  · rfl

theorem reducePercent_congr (ha : Equal a a') (hb : Equal b b') :
    Equal (reducePercent a b) (reducePercent a' b') := by
  by_cases hnum : AreNumbers a b
  · obtain ⟨l, m, rfl, rfl⟩ := hnum
    obtain ⟨l', rfl, hl⟩ := ha.number
    obtain ⟨m', rfl, hm⟩ := hb.number
    have hvalue :=
      percentOf_upToSign (Literal.upToSign_of_same hl) (Literal.upToSign_of_same hm)
    exact getD_congr (fold_congr hl hvalue) (.binary .percent ha hb)
  · rw [reducePercent_of_not hnum, reducePercent_of_not fun h => hnum (h.congr ha.symm hb.symm)]
    exact .binary .percent ha hb

/-! ## Arithmetic -/

/-- Whether two computations give equal trees. -/
def SameForm (r r' : Except BuildError Expr) : Prop :=
  ∃ e e', r = .ok e ∧ r' = .ok e' ∧ Equal e e'

theorem SameForm.ok (h : Equal a b) : SameForm (.ok a) (.ok b) :=
  ⟨a, b, rfl, rfl, h⟩

theorem SameForm.trans {r s t : Except BuildError Expr} (h : SameForm r s) (h' : SameForm s t) :
    SameForm r t := by
  obtain ⟨a, b, rfl, rfl, hab⟩ := h
  obtain ⟨b', c, hb, rfl, hbc⟩ := h'
  cases hb
  exact .ok (hab.trans hbc)

/-- A small literal of the kind of an operand. -/
theorem SameForm.small {i : ℕ} (hi : i ≤ 2) (ka : a.HasKind j) (kb : b.HasKind j)
    (hj : j.isNumeric = true) : SameForm (smallLike i a) (smallLike i b) := by
  obtain ⟨l, hl, -⟩ := smallLike_spec (hi.trans (by norm_num)) ka hj
  rw [← smallLike_eq ka kb, hl]
  exact .ok (.refl _)

/-- Twice an operand. -/
theorem SameForm.double (ka : a.HasKind j) (kb : b.HasKind j) (hj : j.isNumeric = true)
    (h : Equal a b) :
    SameForm (do return .arithmetic .multiply (← smallLike 2 a) a)
      (do return .arithmetic .multiply (← smallLike 2 b) b) := by
  obtain ⟨l, hl, -⟩ := smallLike_spec (n := 2) (by norm_num) ka hj
  rw [← smallLike_eq ka kb, hl]
  exact .ok (.binary _ (.refl _) h)

theorem identities_congr (op : Arithmetic) (ka : a.HasKind j) (hj : j.isNumeric = true)
    (ha : Equal a a') (hb : Equal b b') : SameForm (identities op a b) (identities op a' b') := by
  have ka' : a'.HasKind j := ha.hasKind (fun _ => id) ka
  cases op with
  | add =>
    unfold identities
    simp only [isNumber_congr ha, isNumber_congr hb, same_congr ha hb]
    split_ifs
    · exact .ok ha
    · exact .ok hb
    · exact .double ka ka' hj ha
    · exact .ok (.binary _ ha hb)
  | subtract =>
    unfold identities
    simp only [isNumber_congr hb, same_congr ha hb]
    split_ifs
    · exact .ok ha
    · exact .small (by norm_num) ka ka' hj
    · exact .ok (.binary _ ha hb)
  | multiply =>
    unfold identities
    simp only [isNumber_congr ha, isNumber_congr hb]
    split_ifs
    · exact .small (by norm_num) ka ka' hj
    · exact .ok hb
    · exact .ok ha
    · exact .ok (.binary _ ha hb)
  | divide =>
    unfold identities
    simp only [isNumber_congr ha, isNumber_congr hb, same_congr ha hb]
    split_ifs
    · exact .ok ha
    · exact .small (by norm_num) ka ka' hj
    · exact .small (by norm_num) ka ka' hj
    · exact .ok (.binary _ ha hb)

theorem identities_comm {op : Arithmetic} (hop : (Binary.arithmetic op).commutative = true)
    (ka : a.HasKind j) (kb : b.HasKind j) (hj : j.isNumeric = true) :
    SameForm (identities op a b) (identities op b a) := by
  have hnode : Equal (.arithmetic op a b) (.arithmetic op b a) :=
    .exchange hop (.refl a) (.refl b)
  cases op with
  | add =>
    unfold identities
    simp only [same_comm b a]
    split_ifs with hb ha ha hsame
    · exact .ok (equal_of_isNumber ka kb ha hb)
    · exact .ok (.refl a)
    · exact .ok (.refl b)
    · exact .double ka kb hj (same_iff.mp hsame)
    · exact .ok hnode
  | multiply =>
    unfold identities
    simp only [Bool.or_comm (b.isNumber 0)]
    split_ifs with hzero ha hb hb
    · exact .small (by norm_num) ka kb hj
    · exact .ok (equal_of_isNumber kb ka hb ha)
    · exact .ok (.refl b)
    · exact .ok (.refl a)
    · exact .ok hnode
  | subtract | divide => cases hop

theorem reduceArithmetic_congr (op : Arithmetic) (ka : a.HasKind j) (hj : j.isNumeric = true)
    (ha : Equal a a') (hb : Equal b b') :
    SameForm (reduceArithmetic op a b) (reduceArithmetic op a' b') := by
  have hfold := foldArithmetic_congr op ha hb
  unfold reduceArithmetic
  generalize foldArithmetic op a b = o, foldArithmetic op a' b' = o' at hfold
  cases hfold with
  | none => exact identities_congr op ka hj ha hb
  | some h => exact .ok h

theorem reduceArithmetic_comm {op : Arithmetic} (hop : (Binary.arithmetic op).commutative = true)
    (ka : a.HasKind j) (kb : b.HasKind j) (hj : j.isNumeric = true) :
    SameForm (reduceArithmetic op a b) (reduceArithmetic op b a) := by
  unfold reduceArithmetic
  rw [foldArithmetic_comm hop kb ka]
  cases foldArithmetic op a b with
  | none => exact identities_comm hop ka kb hj
  | some e => exact .ok (.refl e)

/-! ## Truth values -/

theorem reduceComparison_of_not {op : Comparison} (h : ¬AreNumbers a b) :
    reduceComparison op a b = if a.same b then .truth op.reflexive else .comparison op a b := by
  unfold reduceComparison
  split
  · exact absurd ⟨_, _, rfl, rfl⟩ h
  · rfl

theorem reduceComparison_congr (op : Comparison) (ha : Equal a a') (hb : Equal b b') :
    Equal (reduceComparison op a b) (reduceComparison op a' b') := by
  by_cases hnum : AreNumbers a b
  · obtain ⟨l, m, rfl, rfl⟩ := hnum
    obtain ⟨l', rfl, hl⟩ := ha.number
    obtain ⟨m', rfl, hm⟩ := hb.number
    show Equal (.truth (op.holdsOf (l.order m))) (.truth (op.holdsOf (l'.order m')))
    rw [Literal.order_of_same hl hm]
    exact .refl _
  · rw [reduceComparison_of_not hnum,
      reduceComparison_of_not fun h => hnum (h.congr ha.symm hb.symm), same_congr ha hb]
    split_ifs
    · exact .refl _
    · exact .binary _ ha hb

theorem reduceComparison_comm {op : Comparison} (hop : (Binary.comparison op).commutative = true)
    (a b : Expr) : Equal (reduceComparison op a b) (reduceComparison op b a) := by
  by_cases hnum : AreNumbers a b
  · obtain ⟨l, m, rfl, rfl⟩ := hnum
    show Equal (.truth (op.holdsOf (l.order m))) (.truth (op.holdsOf (m.order l)))
    have hswap : m.order l = (l.order m).swap := by
      rw [Literal.order_eq, Literal.order_eq, cmp_swap]
    rw [hswap, op.holdsOf_swap hop]
    exact .refl _
  · rw [reduceComparison_of_not hnum, reduceComparison_of_not fun h => hnum h.swap, same_comm b a]
    split_ifs
    · exact .refl _
    · exact .exchange hop (.refl a) (.refl b)

theorem reduceNot_congr (h : Equal a b) : Equal (reduceNot a) (reduceNot b) := by
  cases h with
  | leaf h =>
    rcases Leaf.eq_or_number_of_same h with rfl | ⟨m, n, rfl, rfl, hmn⟩
    · exact .refl _
    · exact .unary .not (equal_number hmn)
  | unary op ha =>
    cases op with
    | not => exact ha
    | sqrt | abs => exact .unary .not (.unary _ ha)
  | binary op ha hb =>
    cases op with
    | comparison op => exact reduceComparison_congr op.negation ha hb
    | arithmetic | connective | percent | lag | rsi => exact .unary .not (.binary _ ha hb)
  | @exchange op _ _ _ _ hop ha hb =>
    cases op with
    | comparison op =>
      exact (reduceComparison_comm (Comparison.commutative_negation hop) _ _).trans
        (reduceComparison_congr op.negation hb ha)
    | arithmetic | connective => exact .unary .not (.exchange hop ha hb)
    | percent | lag | rsi => cases hop
  | ternary op ha hb hc => exact .unary .not (.ternary op ha hb hc)
  | quaternary op ha hb hc hd => exact .unary .not (.quaternary op ha hb hc hd)

theorem absorb_congr (op : Connective) (known : Bool) (h : Equal a b) :
    Equal (absorb op known a) (absorb op known b) := by
  cases op <;> cases known <;> first | exact h | exact .refl _

theorem absorb_truths (op : Connective) (s t : Bool) :
    absorb op s (.truth t) = absorb op t (.truth s) := by
  cases op <;> cases s <;> cases t <;> rfl

/-- A truth value is absorbed in either place. -/
theorem reduceConnective_truth (op : Connective) (a : Expr) (known : Bool) :
    reduceConnective op a (.truth known) = absorb op known a := by
  cases a with
  | leaf l =>
    cases l with
    | truth s => exact absorb_truths op s known
    | number | «variable» | quote | date => rfl
  | unary | binary | ternary | quaternary => rfl

theorem reduceConnective_of_not {op : Connective} (ha : ∀ t, a ≠ truth t) (hb : ∀ t, b ≠ truth t) :
    reduceConnective op a b = if a.same b then a else .connective op a b := by
  unfold reduceConnective
  split
  · exact absurd rfl (ha _)
  · exact absurd rfl (hb _)
  · rfl

theorem reduceConnective_congr (op : Connective) (ha : Equal a a') (hb : Equal b b') :
    Equal (reduceConnective op a b) (reduceConnective op a' b') := by
  by_cases hta : ∃ t, a = truth t
  · obtain ⟨t, rfl⟩ := hta
    obtain rfl := ha.truth
    exact absorb_congr op t hb
  by_cases htb : ∃ t, b = truth t
  · obtain ⟨t, rfl⟩ := htb
    obtain rfl := hb.truth
    rw [reduceConnective_truth, reduceConnective_truth]
    exact absorb_congr op t ha
  · have hta' : ∀ t, a' ≠ truth t := by
      rintro t rfl
      exact hta ⟨t, Equal.truth ha.symm⟩
    have htb' : ∀ t, b' ≠ truth t := by
      rintro t rfl
      exact htb ⟨t, Equal.truth hb.symm⟩
    rw [reduceConnective_of_not (not_exists.mp hta) (not_exists.mp htb),
      reduceConnective_of_not hta' htb', same_congr ha hb]
    split_ifs
    · exact ha
    · exact .binary _ ha hb

theorem reduceConnective_comm (op : Connective) (a b : Expr) :
    Equal (reduceConnective op a b) (reduceConnective op b a) := by
  by_cases hta : ∃ t, a = truth t
  · obtain ⟨t, rfl⟩ := hta
    rw [reduceConnective_truth]
    exact .refl _
  by_cases htb : ∃ t, b = truth t
  · obtain ⟨t, rfl⟩ := htb
    rw [reduceConnective_truth]
    exact .refl _
  · rw [reduceConnective_of_not (not_exists.mp hta) (not_exists.mp htb),
      reduceConnective_of_not (not_exists.mp htb) (not_exists.mp hta), same_comm b a]
    split_ifs with hsame
    · exact same_iff.mp hsame
    · exact .exchange rfl (.refl a) (.refl b)

/-! ## Choices -/

/-- The rule of choices on a condition that is neither known nor a negation. -/
theorem merge_congr (hc : Equal c c') (ha : Equal a a') (hb : Equal b b') :
    Equal (if a.same b then a else .choice c a b) (if a'.same b' then a' else .choice c' a' b') := by
  rw [same_congr ha hb]
  split_ifs
  · exact ha
  · exact .ternary .choice hc ha hb

theorem reduceChoice_congr (hc : Equal c c') (ha : Equal a a') (hb : Equal b b') :
    Equal (reduceChoice c a b) (reduceChoice c' a' b') := by
  induction hc generalizing a a' b b' with
  | @leaf s t h =>
    rcases Leaf.eq_or_number_of_same h with rfl | ⟨m, n, rfl, rfl, hmn⟩
    · cases s with
      | truth known =>
        cases known with
        | true => exact ha
        | false => exact hb
      | number | «variable» | quote | date => exact merge_congr (.refl _) ha hb
    · exact merge_congr (equal_number hmn) ha hb
  | @unary op c c' hc ihc =>
    cases op with
    | not =>
      show Equal (if a.same b then a else reduceChoice c b a)
        (if a'.same b' then a' else reduceChoice c' b' a')
      rw [same_congr ha hb]
      split_ifs
      · exact ha
      · exact ihc hb ha
    | sqrt | abs => exact merge_congr (.unary _ hc) ha hb
  | binary op hx hy => exact merge_congr (.binary op hx hy) ha hb
  | exchange hop hx hy => exact merge_congr (.exchange hop hx hy) ha hb
  | ternary op hx hy hz => exact merge_congr (.ternary op hx hy hz) ha hb
  | quaternary op hx hy hz hw => exact merge_congr (.quaternary op hx hy hz hw) ha hb

/-! ## One pass -/

theorem reduceUnary_congr (op : Unary) (h : Equal a b) :
    Equal (reduceUnary op a) (reduceUnary op b) := by
  cases op with
  | not => exact reduceNot_congr h
  | sqrt => exact reduceFunction_congr positiveRoot_upToSign h
  | abs => exact reduceFunction_congr UpToSign.abs h

theorem reduceBinary_congr {op : Binary} {i r : Kind} (hr : op.rule j i = .ok r)
    (ka : a.HasKind j) (ha : Equal a a') (hb : Equal b b') :
    SameForm (reduceBinary op a b) (reduceBinary op a' b') := by
  cases op with
  | arithmetic op => exact reduceArithmetic_congr op ka (Binary.rule_arithmetic.mp hr).2.1 ha hb
  | comparison op => exact .ok (reduceComparison_congr op ha hb)
  | connective op => exact .ok (reduceConnective_congr op ha hb)
  | percent => exact .ok (reducePercent_congr ha hb)
  | lag | rsi => exact .ok (.binary _ ha hb)

/-- The rules of a commutative operation give equal results in either order of the operands. -/
theorem reduceBinary_comm {op : Binary} {i r : Kind} (hop : op.commutative = true)
    (hr : op.rule j i = .ok r) (ka : a.HasKind j) (kb : b.HasKind i) :
    SameForm (reduceBinary op a b) (reduceBinary op b a) := by
  cases op with
  | arithmetic op =>
    obtain ⟨rfl, hj, -⟩ := Binary.rule_arithmetic.mp hr
    exact reduceArithmetic_comm hop ka kb hj
  | comparison op => exact .ok (reduceComparison_comm hop a b)
  | connective op => exact .ok (reduceConnective_comm op a b)
  | percent | lag | rsi => cases hop

theorem reduceTernary_congr (op : Ternary) (ha : Equal a a') (hb : Equal b b') (hc : Equal c c') :
    Equal (reduceTernary op a b c) (reduceTernary op a' b' c') := by
  cases op with
  | choice => exact reduceChoice_congr ha hb hc
  | statistic | correlation => exact .ternary _ ha hb hc

/-- Equal trees have equal simplified forms. -/
theorem Rearranged.sameForm (h : Equal a b) (ka : a.HasKind k) : SameForm a.simplify b.simplify := by
  induction h generalizing k with
  | leaf h => exact .ok (.leaf h)
  | unary op _ iha =>
    obtain ⟨j, kx, -⟩ := hasKind_unary.mp ka
    obtain ⟨x, x', hx, hx', hxx⟩ := iha kx
    rw [Expr.simplify, Expr.simplify, hx, hx']
    exact .ok (reduceUnary_congr op hxx)
  | binary op _ _ iha ihb =>
    obtain ⟨j, i, kx, ky, hr⟩ := hasKind_binary.mp ka
    obtain ⟨x, x', hx, hx', hxx⟩ := iha kx
    obtain ⟨y, y', hy, hy', hyy⟩ := ihb ky
    rw [Expr.simplify, Expr.simplify, hx, hx', hy, hy']
    exact reduceBinary_congr hr (kx.of_simplify hx) hxx hyy
  | exchange hop _ _ iha ihb =>
    obtain ⟨j, i, kx, ky, hr⟩ := hasKind_binary.mp ka
    obtain ⟨x, y', hx, hy', hxy⟩ := iha kx
    obtain ⟨y, x', hy, hx', hyx⟩ := ihb ky
    rw [Expr.simplify, Expr.simplify, hx, hx', hy, hy']
    exact (reduceBinary_comm hop hr (kx.of_simplify hx) (ky.of_simplify hy)).trans
      (reduceBinary_congr (Binary.rule_comm hop hr) (ky.of_simplify hy) hyx hxy)
  | ternary op _ _ _ iha ihb ihc =>
    obtain ⟨j, i, l, kx, ky, kz, -⟩ := hasKind_ternary.mp ka
    obtain ⟨x, x', hx, hx', hxx⟩ := iha kx
    obtain ⟨y, y', hy, hy', hyy⟩ := ihb ky
    obtain ⟨z, z', hz, hz', hzz⟩ := ihc kz
    rw [Expr.simplify, Expr.simplify, hx, hx', hy, hy', hz, hz']
    exact .ok (reduceTernary_congr op hxx hyy hzz)
  | quaternary op _ _ _ _ iha ihb ihc ihd =>
    obtain ⟨j, i, l, m, kx, ky, kz, kw, -⟩ := hasKind_quaternary.mp ka
    obtain ⟨x, x', hx, hx', hxx⟩ := iha kx
    obtain ⟨y, y', hy, hy', hyy⟩ := ihb ky
    obtain ⟨z, z', hz, hz', hzz⟩ := ihc kz
    obtain ⟨w, w', hw, hw', hww⟩ := ihd kw
    rw [Expr.simplify, Expr.simplify, hx, hx', hy, hy', hz, hz', hw, hw']
    exact .ok (.quaternary op hxx hyy hzz hww)

/-- Trees that are the same have simplified forms that are the same. -/
theorem same_forms (ka : a.HasKind k) (h : a.same b = true) :
    ∃ a' b', a.simplify = .ok a' ∧ b.simplify = .ok b' ∧ a'.same b' = true := by
  obtain ⟨a', b', ha, hb, hab⟩ := (same_iff.mp h).sameForm ka
  exact ⟨a', b', ha, hb, same_iff.mpr hab⟩

/-- `not(0.0+change==change*change)`, which is simplified to `change!=change*change`. -/
def changeNotSquare : Expr :=
  .not (.comparison .equal (.arithmetic .add (.number (.real 0.0 zero_isFinite)) change)
    (.arithmetic .multiply change change))

/-- `not(change*change==change+0.0)`, which is simplified to `change*change!=change`. -/
def squareNotChange : Expr :=
  .not (.comparison .equal (.arithmetic .multiply change change)
    (.arithmetic .add change (.number (.real 0.0 zero_isFinite))))

theorem same_forms_change :
    ∃ a' b', changeNotSquare.simplify = .ok a' ∧ squareNotChange.simplify = .ok b' ∧
      a'.same b' = true :=
  same_forms (k := .boolean) (by rfl) (by decide +kernel)

end Expr

end TradeRules
