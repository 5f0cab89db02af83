import TradeRules.Proofs.Rule.Meaning

/-!
# Simplified forms are final

A tree is irreducible when at each of its nodes the rules give the node back.  Simplification leaves
such a tree as it is (`Irreducible.simplify`), and its result is always one
(`irreducible_of_simplify`).  So simplifying twice is simplifying once, and no rule applies anywhere in
the result (`simplify_is_final`).

Each rule answers an operand, a part of one, a literal, a truth value, or the node itself, and of the
last it has just been tried that nothing applies.  The only rule that makes a new operation is that of
`a+a`.  It is tried when the sum could not be computed, and for the same reason the product `2*a`
cannot.
-/

namespace TradeRules

open Double

namespace Expr

variable {a b c e r : Expr}

/-- The root of a tree after the rules have been tried once. -/
def reduceRoot : Expr → Except BuildError Expr
  | .leaf l => .ok (.leaf l)
  | .unary op a => .ok (reduceUnary op a)
  | .binary op a b => reduceBinary op a b
  | .ternary op a b c => .ok (reduceTernary op a b c)
  | .quaternary op a b c d => .ok (.quaternary op a b c d)

/-- Whether no rule changes any node. -/
def Irreducible (e : Expr) : Prop :=
  e.Everywhere fun a => a.reduceRoot = .ok a

theorem irreducible_leaf (l : Leaf) : (leaf l).Irreducible :=
  rfl

/-- An irreducible tree is its own simplified form. -/
theorem Irreducible.simplify (h : e.Irreducible) : e.simplify = .ok e := by
  induction e with
  | leaf l => rfl
  | unary op a iha =>
    rw [Expr.simplify, iha h.2]
    exact h.1
  | binary op a b iha ihb =>
    rw [Expr.simplify, iha h.2.1, ihb h.2.2]
    exact h.1
  | ternary op a b c iha ihb ihc =>
    rw [Expr.simplify, iha h.2.1, ihb h.2.2.1, ihc h.2.2.2]
    exact h.1
  | quaternary op a b c d iha ihb ihc ihd =>
    rw [Expr.simplify, iha h.2.1, ihb h.2.2.1, ihc h.2.2.2.1, ihd h.2.2.2.2]
    rfl

/-! ## Literals that cannot be computed -/

/-- A result is refused as a literal only if it is not finite. -/
theorem fold_eq_none {l : Literal} {x : Float} : l.fold x = none ↔ x.isFinite = false := by
  unfold Literal.fold
  rw [Option.map_eq_none_iff]
  cases l with
  | whole n hn =>
    cases hx : x.isFinite with
    | false => simp [Literal.kind, Literal.ofKind?, hx]
    | true => simp [Literal.kind, Literal.ofKind?, Literal.ofInt?, hx, (ofInt_truncate hx).1]
  | real y hy => cases hx : x.isFinite <;> simp [Literal.kind, Literal.ofKind?, Literal.ofDouble?, hx]

/-- A literal that a rule introduces has its value. -/
theorem smallLike_eq_ok {n : ℕ} (hn : n ≤ 2 ^ 53) (h : smallLike n a = .ok e) :
    ∃ l, e = .number l ∧ exact l.toDouble = n := by
  obtain ⟨k, -, h⟩ := bind_eq_ok.mp h
  obtain ⟨l, hl, h⟩ := bind_eq_ok.mp h
  cases h
  refine ⟨l, rfl, ?_⟩
  by_cases hk : k.isNumeric = true
  · obtain ⟨m, hm, -, hval, -⟩ := Literal.small_spec hn hk
    obtain rfl := Except.ok.inj (hm.symm.trans hl)
    rw [hval]
    exact_mod_cast (ofInt_exact (n := (n : ℤ)) (by rw [Nat.abs_cast]; exact_mod_cast hn)).2
  · unfold Literal.small Literal.build at hl
    rw [if_neg hk] at hl
    cases hl

/-- When the sum of two literals that are the same is out of range, so is twice the first. -/
theorem not_finite_double {l m n : Literal} (hl : exact l.toDouble = 2) (hsame : m.same n = true)
    (h : (m.toDouble + n.toDouble).isFinite = false) :
    (l.toDouble * m.toDouble).isFinite = false := by
  have hsum := add_isRounding m.toDouble_isFinite n.toDouble_isFinite
  have hprod := mul_isRounding l.toDouble_isFinite m.toDouble_isFinite
  have heq : exact l.toDouble * exact m.toDouble = exact m.toDouble + exact n.toDouble := by
    rw [hl, ← (Literal.alike_of_same hsame).2.exact_eq]
    ring
  rw [heq] at hprod
  rw [← Bool.not_eq_true] at h ⊢
  exact fun hfin => h (hsum.finite_iff.mpr (hprod.finite_iff.mp hfin))

/-- After `a+a` has become `2*a`, no rule applies. -/
theorem reduceArithmetic_double (hfold : foldArithmetic .add a b = none) (hsame : a.same b = true)
    (hzero : a.isNumber 0 = false) (h : smallLike 2 a = .ok e) :
    reduceArithmetic .multiply e a = .ok (.arithmetic .multiply e a) := by
  obtain ⟨l, rfl, hl⟩ := smallLike_eq_ok (by norm_num) h
  push_cast at hl
  -- A literal in the place of `a` has a sum with itself that is out of range.
  have hsum : ∀ m, a = .number m → ∃ n, m.same n = true ∧
      (m.toDouble + n.toDouble).isFinite = false := by
    rintro m rfl
    obtain ⟨n, rfl, hmn⟩ := number_of_same hsame
    exact ⟨n, hmn, fold_eq_none.mp hfold⟩
  have hproduct : foldArithmetic .multiply (.number l) a = none := by
    cases hf : foldArithmetic .multiply (.number l) a with
    | none => rfl
    | some r =>
      obtain ⟨l', m, hl', hm, hr⟩ := foldArithmetic_eq_some hf
      cases hl'
      obtain ⟨n, hmn, hfin⟩ := hsum m hm
      rw [Arithmetic.apply, fold_eq_none.mpr (not_finite_double hl hmn hfin)] at hr
      cases hr
  have hone : a.isNumber 1 = false := by
    by_contra hone
    obtain ⟨m, hm, hval⟩ := isNumber_spec (by norm_num) (Bool.not_eq_false _ ▸ hone)
    obtain ⟨n, hmn, hfin⟩ := hsum m hm
    have htwo := add_isRounding m.toDouble_isFinite n.toDouble_isFinite
    rw [← (Literal.alike_of_same hmn).2.exact_eq, hval] at htwo
    have hsmall := IsRounding.of_int (n := 2) (by exact_mod_cast htwo) (by norm_num)
    rw [hsmall.1] at hfin
    cases hfin
  have hne : ∀ k : ℕ, k ≤ 1 → (number l).isNumber k = false := fun k hk => by
    by_contra hk'
    obtain ⟨m, hm, hval⟩ := isNumber_spec (by omega) (Bool.not_eq_false _ ▸ hk')
    cases hm
    rw [hl] at hval
    have : (2 : ℕ) = k := by exact_mod_cast hval
    omega
  rw [reduceArithmetic, hproduct]
  simp [identities, hzero, hone, hne 0 (by omega), hne 1 (by omega)]

/-! ## One rule -/

theorem irreducible_of_smallLike {n : ℕ} (h : smallLike n a = .ok e) : e.Irreducible := by
  obtain ⟨k, -, h⟩ := bind_eq_ok.mp h
  obtain ⟨l, -, h⟩ := bind_eq_ok.mp h
  cases h
  exact irreducible_leaf _

/-- The rules of arithmetic give an operand, a literal, the node, or twice the first operand. -/
theorem irreducible_reduceArithmetic {op : Arithmetic} (ha : a.Irreducible) (hb : b.Irreducible)
    (h : reduceArithmetic op a b = .ok e) : e.Irreducible := by
  have hnode : e = .arithmetic op a b → e.Irreducible := by
    rintro rfl
    exact ⟨h, ha, hb⟩
  unfold reduceArithmetic at h
  cases hf : foldArithmetic op a b with
  | some r =>
    rw [hf] at h
    cases h
    obtain ⟨l, m, -, -, hfold⟩ := foldArithmetic_eq_some hf
    obtain ⟨n, rfl, -⟩ := Literal.fold_eq_some hfold
    exact irreducible_leaf _
  | none =>
    rw [hf] at h
    cases op with
    | add =>
      simp only [identities] at h
      split_ifs at h with hb0 ha0 hsame
      · cases h
        exact ha
      · cases h
        exact hb
      · obtain ⟨two, htwo, h⟩ := bind_eq_ok.mp h
        cases h
        exact ⟨reduceArithmetic_double hf hsame (Bool.eq_false_iff.mpr ha0) htwo,
          irreducible_of_smallLike htwo, ha⟩
      · exact hnode (Except.ok.inj h).symm
    | subtract =>
      simp only [identities] at h
      split_ifs at h
      · cases h
        exact ha
      · exact irreducible_of_smallLike h
      · exact hnode (Except.ok.inj h).symm
    | multiply =>
      simp only [identities] at h
      split_ifs at h
      · exact irreducible_of_smallLike h
      · cases h
        exact hb
      · cases h
        exact ha
      · exact hnode (Except.ok.inj h).symm
    | divide =>
      simp only [identities] at h
      split_ifs at h
      · cases h
        exact ha
      · exact irreducible_of_smallLike h
      · exact irreducible_of_smallLike h
      · exact hnode (Except.ok.inj h).symm

/-- A computed literal, or else a node that cannot be computed. -/
theorem irreducible_getD_fold {l : Literal} {x : Float} (h : l.fold x = none → e.Irreducible) :
    ((l.fold x).getD e).Irreducible := by
  cases hf : l.fold x with
  | none => exact h hf
  | some r =>
    obtain ⟨n, rfl, -⟩ := Literal.fold_eq_some hf
    exact irreducible_leaf _

theorem irreducible_reducePercent (ha : a.Irreducible) (hb : b.Irreducible) :
    (reducePercent a b).Irreducible := by
  have hnode : reducePercent a b = .binary .percent a b → (binary .percent a b).Irreducible :=
    fun h => ⟨congrArg Except.ok h, ha, hb⟩
  unfold reducePercent at hnode ⊢
  split at hnode
  · exact irreducible_getD_fold fun hf => hnode (by rw [hf]; rfl)
  · exact hnode rfl

theorem irreducible_reduceFunction {op : Unary} {f : Float → Float}
    (hop : ∀ a, reduceUnary op a = reduceFunction op f a) (ha : a.Irreducible) :
    (reduceFunction op f a).Irreducible := by
  have hnode : reduceFunction op f a = .unary op a → (unary op a).Irreducible :=
    fun h => ⟨congrArg Except.ok ((hop a).trans h), ha⟩
  unfold reduceFunction at hnode ⊢
  split at hnode
  · exact irreducible_getD_fold fun hf => hnode (by rw [hf]; rfl)
  · exact hnode rfl

theorem irreducible_reduceComparison (op : Comparison) (ha : a.Irreducible) (hb : b.Irreducible) :
    (reduceComparison op a b).Irreducible := by
  have hnode : reduceComparison op a b = .comparison op a b → (comparison op a b).Irreducible :=
    fun h => ⟨congrArg Except.ok h, ha, hb⟩
  unfold reduceComparison at hnode ⊢
  split at hnode
  · exact irreducible_leaf _
  · split_ifs at hnode ⊢
    · exact irreducible_leaf _
    · exact hnode rfl

theorem irreducible_reduceNot (ha : a.Irreducible) : (reduceNot a).Irreducible := by
  have hnode : reduceNot a = .not a → (Expr.not a).Irreducible :=
    fun h => ⟨congrArg Except.ok h, ha⟩
  unfold reduceNot at hnode ⊢
  split at hnode
  · exact irreducible_leaf _
  · exact ha.2
  · exact irreducible_reduceComparison _ ha.2.1 ha.2.2
  · exact hnode rfl

theorem irreducible_absorb (op : Connective) (known : Bool) (ha : a.Irreducible) :
    (absorb op known a).Irreducible := by
  cases op <;> cases known <;> first | exact ha | exact irreducible_leaf _

theorem irreducible_reduceConnective (op : Connective) (ha : a.Irreducible) (hb : b.Irreducible) :
    (reduceConnective op a b).Irreducible := by
  have hnode : reduceConnective op a b = .connective op a b → (connective op a b).Irreducible :=
    fun h => ⟨congrArg Except.ok h, ha, hb⟩
  unfold reduceConnective at hnode ⊢
  split at hnode
  · exact irreducible_absorb op _ hb
  · exact irreducible_absorb op _ ha
  · split_ifs at hnode ⊢
    · exact ha
    · exact hnode rfl

/-- A choice on a negated condition goes on with the condition itself. -/
theorem irreducible_reduceChoice (hc : c.Irreducible) (ha : a.Irreducible) (hb : b.Irreducible) :
    (reduceChoice c a b).Irreducible := by
  fun_induction reduceChoice c a b with
  | case1 => exact ha
  | case2 => exact hb
  | case3 => exact ha
  | case4 c a b _ ih => exact ih hc.2 hb ha
  | case5 => exact ha
  | case6 c a b htruth hnot hsame =>
    refine ⟨?_, hc, ha, hb⟩
    show Except.ok (reduceChoice c a b) = _
    rw [reduceChoice, if_neg hsame]
    · exact htruth
    · exact hnot

/-! ## One pass -/

theorem irreducible_reduceUnary (op : Unary) (ha : a.Irreducible) :
    (reduceUnary op a).Irreducible := by
  cases op with
  | not => exact irreducible_reduceNot ha
  | sqrt => exact irreducible_reduceFunction (fun _ => rfl) ha
  | abs => exact irreducible_reduceFunction (fun _ => rfl) ha

theorem irreducible_reduceBinary {op : Binary} (ha : a.Irreducible) (hb : b.Irreducible)
    (h : reduceBinary op a b = .ok e) : e.Irreducible := by
  cases op with
  | arithmetic op => exact irreducible_reduceArithmetic ha hb h
  | comparison op =>
    cases h
    exact irreducible_reduceComparison op ha hb
  | connective op =>
    cases h
    exact irreducible_reduceConnective op ha hb
  | percent =>
    cases h
    exact irreducible_reducePercent ha hb
  | lag =>
    cases h
    exact ⟨rfl, ha, hb⟩
  | rsi =>
    cases h
    exact ⟨rfl, ha, hb⟩

theorem irreducible_reduceTernary (op : Ternary) (ha : a.Irreducible) (hb : b.Irreducible)
    (hc : c.Irreducible) : (reduceTernary op a b c).Irreducible := by
  cases op with
  | choice => exact irreducible_reduceChoice ha hb hc
  | statistic s => exact ⟨rfl, ha, hb, hc⟩
  | correlation partner => exact ⟨rfl, ha, hb, hc⟩

/-- Simplified forms are irreducible. -/
theorem irreducible_of_simplify (h : e.simplify = .ok r) : r.Irreducible := by
  induction e generalizing r with
  | leaf l =>
    cases h
    exact irreducible_leaf l
  | unary op a iha =>
    obtain ⟨a', ha, h⟩ := bind_eq_ok.mp h
    cases h
    exact irreducible_reduceUnary op (iha ha)
  | binary op a b iha ihb =>
    obtain ⟨a', ha, h⟩ := bind_eq_ok.mp h
    obtain ⟨b', hb, h⟩ := bind_eq_ok.mp h
    exact irreducible_reduceBinary (iha ha) (ihb hb) h
  | ternary op a b c iha ihb ihc =>
    obtain ⟨a', ha, h⟩ := bind_eq_ok.mp h
    obtain ⟨b', hb, h⟩ := bind_eq_ok.mp h
    obtain ⟨c', hc, h⟩ := bind_eq_ok.mp h
    cases h
    exact irreducible_reduceTernary op (iha ha) (ihb hb) (ihc hc)
  | quaternary op a b c d iha ihb ihc ihd =>
    obtain ⟨a', ha, h⟩ := bind_eq_ok.mp h
    obtain ⟨b', hb, h⟩ := bind_eq_ok.mp h
    obtain ⟨c', hc, h⟩ := bind_eq_ok.mp h
    obtain ⟨d', hd, h⟩ := bind_eq_ok.mp h
    cases h
    exact ⟨rfl, iha ha, ihb hb, ihc hc, ihd hd⟩

/-- Simplifying a simplified form changes nothing. -/
theorem simplify_simplify (h : e.simplify = .ok r) : r.simplify = .ok r :=
  (irreducible_of_simplify h).simplify

/-- Simplification is idempotent: of a well-typed tree it makes one that it gives back node for node, and
so it gives back every subtree, at the root of which no rule applies. -/
theorem simplify_is_final {k : Kind} (hk : e.HasKind k) :
    ∃ r, e.simplify = .ok r ∧ r.simplify = .ok r ∧
      ∀ site ∈ r.sites, site.2.simplify = .ok site.2 ∧ site.2.reduceRoot = .ok site.2 := by
  obtain ⟨r, hr, -⟩ := hk.simplify
  have hfinal : r.Irreducible := irreducible_of_simplify hr
  have hsites : ∀ site ∈ r.sites, site.2.Irreducible := everywhere_iff.mp hfinal.below
  refine ⟨r, hr, hfinal.simplify, fun site hsite => ?_⟩
  exact ⟨(hsites site hsite).simplify, (hsites site hsite).root⟩

/-- The held days added to themselves become a product, to which no rule applies. -/
theorem simplify_is_final_held :
    ∃ r, (arithmetic .add sampleHeld sampleHeld).simplify = .ok r ∧ r.simplify = .ok r ∧
      ∀ site ∈ r.sites, site.2.simplify = .ok site.2 ∧ site.2.reduceRoot = .ok site.2 :=
  simplify_is_final (k := .integer) (by rfl)

end Expr

end TradeRules
