import TradeRules.Proofs.Rule.Operation
import TradeRules.Proofs.Rule.Sites
import TradeRules.Proofs.Rule.Typing
import TradeRules.Rule.Simplify

/-!
# Simplification of well-typed trees

A well-typed tree has a simplified form, and it is of the same kind (`HasKind.simplify`).  Only the
literals that the identities of arithmetic introduce could make simplification fail, and those of a
well-typed operand cannot: its declared kind is a kind of numbers, and the literals are small.
-/

namespace TradeRules

namespace Literal

/-- A literal of a given kind has it. -/
theorem kind_of_ofKind? {k : Kind} {x : Float} {l : Literal} (h : ofKind? k x = some l) :
    l.kind = k := by
  cases k with
  | boolean => cases h
  | integer =>
    simp only [ofKind?, ofInt?] at h
    split_ifs at h
    cases h
    rfl
  | float =>
    simp only [ofKind?, ofDouble?] at h
    split_ifs at h
    cases h
    rfl
  | integerQuote => cases h
  | floatQuote => cases h

/-- A folded result is a literal of the kind of its first operand. -/
theorem fold_eq_some {like : Literal} {x : Float} {e : Expr} (h : like.fold x = some e) :
    ∃ l, e = .number l ∧ ofKind? like.kind x = some l := by
  obtain ⟨l, hl, rfl⟩ := Option.map_eq_some_iff.mp h
  exact ⟨l, rfl, hl⟩

theorem kind_isNumeric (l : Literal) : l.kind.isNumeric = true := by
  cases l <;> rfl

/-- The literal for a small whole number exists in each kind of numbers, and is exact. -/
theorem small_spec {n : ℕ} (hn : n ≤ 2 ^ 53) {k : Kind} (hk : k.isNumeric = true) :
    ∃ l, small n k = .ok l ∧ l.kind = k ∧ l.toDouble = Double.ofInt n ∧ l.IsExact := by
  have hexact := Double.ofInt_exact (n := n) (by rw [Nat.abs_cast]; exact_mod_cast hn)
  have htrunc : Double.truncate (Double.ofInt n) = n := by
    rw [Double.truncate_eq hexact.1, hexact.2, Double.towardZero_intCast]
  cases k with
  | boolean => cases hk
  | integer =>
    refine ⟨.whole n hexact.1, ?_, rfl, rfl, htrunc⟩
    simp [small, build, Kind.isNumeric, ofInt?, hexact.1]
  | float =>
    refine ⟨.real (Double.ofInt n) hexact.1, ?_, rfl, rfl, trivial⟩
    simp [small, build, Kind.isNumeric, ofDouble?, hexact.1]
  | integerQuote => cases hk
  | floatQuote => cases hk

end Literal

namespace Expr

variable {a b c e : Expr} {j k l : Kind}

theorem hasKind_number {n : Literal} : (number n).HasKind k ↔ n.kind = k :=
  hasKind_leaf

theorem hasKind_truth (t : Bool) : (truth t).HasKind .boolean :=
  hasKind_leaf.mpr rfl

/-- A small literal of the kind of a well-typed tree of numbers. -/
theorem smallLike_spec {n : ℕ} (hn : n ≤ 2 ^ 53) (ha : a.HasKind j) (hj : j.isNumeric = true) :
    ∃ l, smallLike n a = .ok (.number l) ∧ l.kind = j ∧ l.toDouble = Double.ofInt n ∧ l.IsExact := by
  obtain ⟨l, hl, hkind, hval, hexact⟩ := Literal.small_spec hn hj
  refine ⟨l, ?_, hkind, hval, hexact⟩
  simp [smallLike, ha.declaredKind, hl, bind, Except.bind, pure, Except.pure]

/-! ## The rules keep kinds -/

theorem hasKind_fold {m : Literal} {x : Float} (h : m.fold x = some e) : e.HasKind m.kind := by
  obtain ⟨l, rfl, hl⟩ := Literal.fold_eq_some h
  exact hasKind_number.mpr (Literal.kind_of_ofKind? hl)

/-- A folded result, or the node itself, has the kind of the first operand. -/
theorem hasKind_getD_fold {m : Literal} {x : Float} (h : e.HasKind m.kind) :
    ((m.fold x).getD e).HasKind m.kind := by
  cases hf : m.fold x with
  | none => exact h
  | some e' => exact hasKind_fold hf

theorem foldArithmetic_eq_some {op : Arithmetic} (h : foldArithmetic op a b = some e) :
    ∃ l m, a = .number l ∧ b = .number m ∧ l.fold (op.apply l.toDouble m.toDouble) = some e := by
  unfold foldArithmetic at h
  split at h
  · exact ⟨_, _, rfl, rfl, h⟩
  · cases h

/-- The identities of arithmetic succeed on operands of one kind of numbers, and keep it. -/
theorem hasKind_identities (op : Arithmetic) (ha : a.HasKind j) (hb : b.HasKind j)
    (hj : j.isNumeric = true) : ∃ e, identities op a b = .ok e ∧ e.HasKind j := by
  have hsmall : ∀ n ≤ 2, ∃ l, smallLike n a = .ok (.number l) ∧ (number l).HasKind j := by
    intro n hn
    obtain ⟨l, hl, hkind, -⟩ := smallLike_spec (hn.trans (by norm_num)) ha hj
    exact ⟨l, hl, hasKind_number.mpr hkind⟩
  obtain ⟨zero, hzero, kzero⟩ := hsmall 0 (by norm_num)
  obtain ⟨one, hone, kone⟩ := hsmall 1 (by norm_num)
  obtain ⟨two, htwo, ktwo⟩ := hsmall 2 (by norm_num)
  have hnode : (arithmetic op a b).HasKind j := hasKind_arithmetic ha hb hj
  cases op with
  | add =>
    simp only [identities]
    split_ifs
    · exact ⟨a, rfl, ha⟩
    · exact ⟨b, rfl, hb⟩
    · exact ⟨.arithmetic .multiply (.number two) a, by rw [htwo]; rfl,
        hasKind_arithmetic ktwo ha hj⟩
    · exact ⟨_, rfl, hnode⟩
  | subtract =>
    simp only [identities]
    split_ifs
    · exact ⟨a, rfl, ha⟩
    · exact ⟨_, hzero, kzero⟩
    · exact ⟨_, rfl, hnode⟩
  | multiply =>
    simp only [identities]
    split_ifs
    · exact ⟨_, hzero, kzero⟩
    · exact ⟨b, rfl, hb⟩
    · exact ⟨a, rfl, ha⟩
    · exact ⟨_, rfl, hnode⟩
  | divide =>
    simp only [identities]
    split_ifs
    · exact ⟨a, rfl, ha⟩
    · exact ⟨_, hzero, kzero⟩
    · exact ⟨_, hone, kone⟩
    · exact ⟨_, rfl, hnode⟩

theorem hasKind_reduceArithmetic (op : Arithmetic) (ha : a.HasKind j) (hb : b.HasKind j)
    (hj : j.isNumeric = true) : ∃ e, reduceArithmetic op a b = .ok e ∧ e.HasKind j := by
  unfold reduceArithmetic
  cases hf : foldArithmetic op a b with
  | none => exact hasKind_identities op ha hb hj
  | some e =>
    obtain ⟨l, m, rfl, -, hfold⟩ := foldArithmetic_eq_some hf
    exact ⟨e, rfl, hasKind_number.mp ha ▸ hasKind_fold hfold⟩

theorem hasKind_reducePercent (ha : a.HasKind j) (hb : b.HasKind k) (hj : j.isNumeric = true)
    (hk : k.isNumeric = true) : (reducePercent a b).HasKind j := by
  have hnode : (binary .percent a b).HasKind j := hasKind_percent ha hb hj hk
  unfold reducePercent
  split
  · have hl := hasKind_number.mp ha
    exact hl ▸ hasKind_getD_fold (hl ▸ hnode)
  · exact hnode

theorem hasKind_reduceFunction {op : Unary} {f : Float → Float} (ha : a.HasKind j)
    (h : (unary op a).HasKind j) : (reduceFunction op f a).HasKind j := by
  unfold reduceFunction
  split
  · have hl := hasKind_number.mp ha
    exact hl ▸ hasKind_getD_fold (hl ▸ h)
  · exact h

theorem hasKind_reduceComparison (op : Comparison) (ha : a.HasKind j) (hb : b.HasKind j)
    (hj : j.isNumeric = true) : (reduceComparison op a b).HasKind .boolean := by
  unfold reduceComparison
  split
  · exact hasKind_truth _
  · split_ifs
    · exact hasKind_truth _
    · exact hasKind_comparison ha hb hj

theorem hasKind_reduceNot (ha : a.HasKind .boolean) : (reduceNot a).HasKind .boolean := by
  unfold reduceNot
  split
  · exact hasKind_truth _
  · obtain ⟨j, hx, hr⟩ := hasKind_unary.mp ha
    exact (Unary.rule_not.mp hr).1 ▸ hx
  · obtain ⟨j, k, hx, hy, hr⟩ := hasKind_binary.mp ha
    obtain ⟨rfl, hj, -⟩ := Binary.rule_comparison.mp hr
    exact hasKind_reduceComparison _ hx hy hj
  · exact hasKind_not ha

theorem hasKind_absorb (op : Connective) (known : Bool) (ha : a.HasKind .boolean) :
    (absorb op known a).HasKind .boolean := by
  cases op <;> cases known <;> first | exact ha | exact hasKind_truth _

theorem hasKind_reduceConnective (op : Connective) (ha : a.HasKind .boolean)
    (hb : b.HasKind .boolean) : (reduceConnective op a b).HasKind .boolean := by
  unfold reduceConnective
  split
  · exact hasKind_absorb op _ hb
  · exact hasKind_absorb op _ ha
  · split_ifs
    · exact ha
    · exact hasKind_connective ha hb

theorem hasKind_reduceChoice (hc : c.HasKind .boolean) (ha : a.HasKind k) (hb : b.HasKind k)
    (hk : k.isQuote = false) : (reduceChoice c a b).HasKind k := by
  fun_induction reduceChoice c a b with
  | case1 => exact ha
  | case2 => exact hb
  | case3 => exact ha
  | case4 c a b _ ih =>
    obtain ⟨j, hx, hr⟩ := hasKind_unary.mp hc
    exact ih ((Unary.rule_not.mp hr).1 ▸ hx) hb ha
  | case5 => exact ha
  | case6 => exact hasKind_choice hc ha hb hk

/-! ## One pass -/

theorem hasKind_reduceUnary {op : Unary} (ha : a.HasKind j) (hr : op.rule j = .ok k) :
    (reduceUnary op a).HasKind k := by
  cases op with
  | not =>
    obtain ⟨rfl, rfl⟩ := Unary.rule_not.mp hr
    exact hasKind_reduceNot ha
  | sqrt =>
    obtain ⟨-, rfl⟩ := Unary.rule_sqrt.mp hr
    exact hasKind_reduceFunction ha (hasKind_unary.mpr ⟨_, ha, hr⟩)
  | abs =>
    obtain ⟨-, rfl⟩ := Unary.rule_abs.mp hr
    exact hasKind_reduceFunction ha (hasKind_unary.mpr ⟨_, ha, hr⟩)

theorem hasKind_reduceBinary {op : Binary} (ha : a.HasKind j) (hb : b.HasKind k)
    (hr : op.rule j k = .ok l) : ∃ e, reduceBinary op a b = .ok e ∧ e.HasKind l := by
  cases op with
  | arithmetic op =>
    obtain ⟨rfl, hj, rfl⟩ := Binary.rule_arithmetic.mp hr
    exact hasKind_reduceArithmetic op ha hb hj
  | comparison op =>
    obtain ⟨rfl, hj, rfl⟩ := Binary.rule_comparison.mp hr
    exact ⟨_, rfl, hasKind_reduceComparison op ha hb hj⟩
  | connective op =>
    obtain ⟨rfl, rfl, rfl⟩ := Binary.rule_connective.mp hr
    exact ⟨_, rfl, hasKind_reduceConnective op ha hb⟩
  | percent =>
    obtain ⟨hj, hk, rfl⟩ := Binary.rule_percent.mp hr
    exact ⟨_, rfl, hasKind_reducePercent ha hb hj hk⟩
  | lag => exact ⟨_, rfl, hasKind_binary.mpr ⟨j, k, ha, hb, hr⟩⟩
  | rsi => exact ⟨_, rfl, hasKind_binary.mpr ⟨j, k, ha, hb, hr⟩⟩

theorem hasKind_reduceTernary {op : Ternary} {m : Kind} (ha : a.HasKind j) (hb : b.HasKind k)
    (hc : c.HasKind l) (hr : op.rule j k l = .ok m) : (reduceTernary op a b c).HasKind m := by
  cases op with
  | choice =>
    obtain ⟨rfl, rfl, hk, rfl⟩ := Ternary.rule_choice.mp hr
    exact hasKind_reduceChoice ha hb hc hk
  | statistic s => exact hasKind_ternary.mpr ⟨j, k, l, ha, hb, hc, hr⟩
  | correlation partner => exact hasKind_ternary.mpr ⟨j, k, l, ha, hb, hc, hr⟩

/-- A well-typed tree has a simplified form, of the same kind. -/
theorem HasKind.simplify (h : e.HasKind k) : ∃ e', e.simplify = .ok e' ∧ e'.HasKind k := by
  induction e generalizing k with
  | leaf l => exact ⟨_, rfl, h⟩
  | unary op a iha =>
    obtain ⟨j, ha, hr⟩ := hasKind_unary.mp h
    obtain ⟨a', ha', ka⟩ := iha ha
    exact ⟨reduceUnary op a', by rw [Expr.simplify, ha']; rfl, hasKind_reduceUnary ka hr⟩
  | binary op a b iha ihb =>
    obtain ⟨j, l, ha, hb, hr⟩ := hasKind_binary.mp h
    obtain ⟨a', ha', ka⟩ := iha ha
    obtain ⟨b', hb', kb⟩ := ihb hb
    obtain ⟨e', he', ke⟩ := hasKind_reduceBinary ka kb hr
    exact ⟨e', by rw [Expr.simplify, ha', hb']; exact he', ke⟩
  | ternary op a b c iha ihb ihc =>
    obtain ⟨j, l, m, ha, hb, hc, hr⟩ := hasKind_ternary.mp h
    obtain ⟨a', ha', ka⟩ := iha ha
    obtain ⟨b', hb', kb⟩ := ihb hb
    obtain ⟨c', hc', kc⟩ := ihc hc
    exact ⟨reduceTernary op a' b' c', by rw [Expr.simplify, ha', hb', hc']; rfl,
      hasKind_reduceTernary ka kb kc hr⟩
  | quaternary op a b c d iha ihb ihc ihd =>
    obtain ⟨j, l, m, n, ha, hb, hc, hd, hr⟩ := hasKind_quaternary.mp h
    obtain ⟨a', ha', ka⟩ := iha ha
    obtain ⟨b', hb', kb⟩ := ihb hb
    obtain ⟨c', hc', kc⟩ := ihc hc
    obtain ⟨d', hd', kd⟩ := ihd hd
    exact ⟨.quaternary op a' b' c' d', by rw [Expr.simplify, ha', hb', hc', hd']; rfl,
      hasKind_quaternary.mpr ⟨j, l, m, n, ka, kb, kc, kd, hr⟩⟩

theorem HasKind.of_simplify {e' : Expr} (h : e.HasKind k) (he : e.simplify = .ok e') :
    e'.HasKind k := by
  obtain ⟨r, hr, kr⟩ := h.simplify
  rw [he] at hr
  cases hr
  exact kr

/-- Simplification keeps typing: a well-typed tree has a simplified form, which is of the same kind and
well typed at all sites. -/
theorem simplify_keeps_typing (h : e.HasKind k) :
    ∃ r, e.simplify = .ok r ∧ r.HasKind k ∧ ∀ site ∈ r.sites, ∃ j, site.2.HasKind j := by
  obtain ⟨r, hr, kr⟩ := h.simplify
  refine ⟨r, hr, kr, ?_⟩
  rintro ⟨path, s⟩ hmem
  exact kr.at? path (at?_of_mem_sites hmem)

/-- The average of the closing price over `0+(held+held)` days. -/
def averageTwiceHeld : Expr :=
  .ternary (.statistic .average) (.quote .closing)
    (.arithmetic .add (.number (.whole 0 Double.ofInt_zero_isFinite))
      (.arithmetic .add (.leaf (.variable "held" .integer)) (.leaf (.variable "held" .integer))))
    (.number (.whole 0 Double.ofInt_zero_isFinite))

/-- Its period is simplified to `2*held`, and stays a whole number. -/
theorem simplify_keeps_typing_average :
    averageTwiceHeld.HasKind .float ∧
      ∃ r, averageTwiceHeld.simplify = .ok r ∧ r.HasKind .float ∧
        ∀ site ∈ r.sites, ∃ j, site.2.HasKind j :=
  ⟨by rfl, simplify_keeps_typing (by rfl)⟩

end Expr

end TradeRules
