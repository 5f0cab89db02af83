import TradeRules.Proofs.Double.Zeros
import TradeRules.Proofs.Rule.Equality
import TradeRules.Proofs.Rule.Evaluate

/-!
# Values of equal trees

Trees that are the same have the same value in every environment in which both have one, up to the
sign of zero.  Infinities and NaN are values here like the others.

Every operation takes numbers that are equal up to the sign of zero to such numbers.  Arithmetic that
commutes gives the same result in either order of the operands.  A connective stops at its first
operand when that decides it, so the two orders may evaluate different operands.  Both come to one
truth value, provided that both come to any, since a decisive operand decides in either place.
-/

namespace TradeRules

open Double

variable {x y x' y' : Float}

/-! ## Operations -/

theorem Double.UpToSign.alike (h : UpToSign x y) (hx : x.isFinite = true) : Alike x y := by
  have hy : y.isFinite = true := h.isFinite_eq ▸ hx
  rcases h.beq_or_isNaN with hbeq | ⟨hnan, -⟩
  · exact ⟨hx, hy, (beq_iff_exact hx hy).mp hbeq⟩
  · rw [isNaN_of_isFinite hx] at hnan
    cases hnan

theorem Alike.upToSign (h : Alike x y) : UpToSign x y :=
  .of_exact h.left h.right h.exact_eq

theorem Literal.upToSign_of_same {m n : Literal} (h : m.same n = true) :
    UpToSign m.toDouble n.toDouble :=
  (alike_of_same h).2.upToSign

theorem Arithmetic.apply_upToSign (op : Arithmetic) (hx : UpToSign x x') (hy : UpToSign y y') :
    UpToSign (op.apply x y) (op.apply x' y') := by
  cases op with
  | add => exact hx.add hy
  | subtract => exact hx.sub hy
  | multiply => exact hx.mul hy
  | divide =>
    -- Zeros have quotients of either sign, but division by either is zero.
    show UpToSign (if y == 0.0 then 0.0 else x / y) (if y' == 0.0 then 0.0 else x' / y')
    rw [← hy.beq_eq (.refl 0.0)]
    split_ifs with hzero
    · exact .refl 0.0
    · rcases hy with rfl | ⟨hzero', -⟩
      · exact hx.div y
      · exact absurd hzero' hzero

theorem Arithmetic.apply_swap {op : Arithmetic} (hop : (Binary.arithmetic op).commutative = true)
    (x y : Float) : op.apply x y = op.apply y x := by
  cases op with
  | add => exact add_swap x y
  | multiply => exact mul_swap x y
  | subtract | divide => cases hop

theorem percentOf_upToSign (hx : UpToSign x x') (hy : UpToSign y y') :
    UpToSign (percentOf x y) (percentOf x' y') :=
  (hx.mul hy).div 100.0

theorem positiveRoot_upToSign (h : UpToSign x y) : UpToSign (positiveRoot x) (positiveRoot y) := by
  unfold positiveRoot
  simp only [(UpToSign.refl 0.0).lt_iff h]
  split_ifs with hpos
  · rcases h with rfl | ⟨-, hzero⟩
    · exact .refl _
    · exact absurd (((UpToSign.refl 0.0).lt_iff (.of_beq_zero hzero)).mp hpos) (not_lt_self 0.0)
  · exact .refl 0.0

theorem Kind.settle_upToSign (k : Kind) (h : UpToSign x y) :
    UpToSign (k.settle x) (k.settle y) := by
  unfold Kind.settle
  rw [← h.isFinite_eq]
  split_ifs with hk
  · rw [(h.alike hk.2).truncate]
    exact .refl _
  · exact h

theorem Comparison.holds_upToSign (op : Comparison) (hx : UpToSign x x') (hy : UpToSign y y') :
    op.holds x y = op.holds x' y' := by
  cases op with
  | less => exact decide_eq_decide.mpr (hx.lt_iff hy)
  | greater => exact decide_eq_decide.mpr (hy.lt_iff hx)
  | lessEqual => exact decide_eq_decide.mpr (hx.le_iff hy)
  | greaterEqual => exact decide_eq_decide.mpr (hy.le_iff hx)
  | equal => exact hx.beq_eq hy
  | notEqual => exact congrArg (!·) (hx.beq_eq hy)

theorem Comparison.holds_swap {op : Comparison} (hop : (Binary.comparison op).commutative = true)
    (x y : Float) : op.holds x y = op.holds y x := by
  cases op with
  | equal => exact beq_swap x y
  | notEqual => exact congrArg (!·) (beq_swap x y)
  | less | greater | lessEqual | greaterEqual => cases hop

theorem Truth.holds_upToSign (h : UpToSign x y) : Truth.holds x = Truth.holds y :=
  decide_eq_decide.mpr ((UpToSign.refl Truth.level).le_iff h)

namespace Expr

variable {env : Environment} {a a' b b' c c' d d' : Expr} {j k : Kind}
  {s t : Bool} {f : Field}

/-! ## Trees of one value -/

/-- Whether two trees have the same value, up to the sign of zero, if both have one.  Fields are told
apart. -/
structure SameValue (env : Environment) (a b : Expr) : Prop where
  values : ∀ {x y}, a.evaluate env = .ok x → b.evaluate env = .ok y → UpToSign x y
  fields : ∀ {f}, a = .quote f → b = .quote f

namespace SameValue

/-- Operations are not fields, so only their values count. -/
theorem of_operation (hleaf : a.isLeaf = false)
    (h : ∀ {x y}, a.evaluate env = .ok x → b.evaluate env = .ok y → UpToSign x y) :
    SameValue env a b :=
  ⟨h, by rintro f rfl; cases hleaf⟩

theorem truth (h : SameValue env a b) (ha : a.ComesTo env s) (hb : b.ComesTo env t) : s = t := by
  obtain ⟨x, hx, rfl⟩ := ha
  obtain ⟨y, hy, rfl⟩ := hb
  exact Truth.holds_upToSign (h.values hx hy)

/-- Trees of one value stand for one period or offset. -/
theorem truncate_eq (h : SameValue env a b) (hx : a.evaluate env = .ok x)
    (hy : b.evaluate env = .ok y) (hfin : x.isFinite = true) : truncate x = truncate y :=
  ((h.values hx hy).alike hfin).truncate

theorem field_eq {g : Field} (h : SameValue env a b) (ka : a.HasKind j) (hj : j.isQuote = true)
    (hf : a.field = .ok f) (hg : b.field = .ok g) : f = g := by
  obtain ⟨f', rfl, -⟩ := ka.eq_quote hj
  rw [h.fields rfl] at hg
  exact Except.ok.inj (hf.symm.trans hg)

theorem leaf {l m : Leaf} (h : l.same m = true) : SameValue env (.leaf l) (.leaf m) := by
  rcases Leaf.eq_or_number_of_same h with rfl | ⟨m, n, rfl, rfl, hmn⟩
  · refine ⟨fun hx hy => ?_, id⟩
    cases hx.symm.trans hy
    exact .refl _
  · refine ⟨fun hx hy => ?_, fun hf => by cases hf⟩
    cases hx
    cases hy
    exact Literal.upToSign_of_same hmn

theorem unary {op : Unary} (h : SameValue env a a') (k : (Expr.unary op a).HasKind j)
    (k' : (Expr.unary op a').HasKind j) : SameValue env (.unary op a) (.unary op a') := by
  refine of_operation rfl fun hx hy => ?_
  cases op with
  | not =>
    obtain ⟨s, hs, rfl⟩ := evaluate_not.mp hx
    obtain ⟨t, ht, rfl⟩ := evaluate_not.mp hy
    rw [h.truth hs ht]
    exact .refl _
  | sqrt =>
    obtain ⟨p, hp, rfl⟩ := (evaluate_sqrt k).mp hx
    obtain ⟨q, hq, rfl⟩ := (evaluate_sqrt k').mp hy
    exact j.settle_upToSign (positiveRoot_upToSign (h.values hp hq))
  | abs =>
    obtain ⟨p, hp, rfl⟩ := (evaluate_abs k).mp hx
    obtain ⟨q, hq, rfl⟩ := (evaluate_abs k').mp hy
    exact j.settle_upToSign (h.values hp hq).abs

theorem binary {op : Binary} (ha : SameValue env a a') (hb : SameValue env b b')
    (k : (Expr.binary op a b).HasKind j) (k' : (Expr.binary op a' b').HasKind j) :
    SameValue env (.binary op a b) (.binary op a' b') := by
  refine of_operation rfl fun hx hy => ?_
  cases op with
  | arithmetic op =>
    obtain ⟨p, q, hp, hq, rfl⟩ := (evaluate_arithmetic k).mp hx
    obtain ⟨p', q', hp', hq', rfl⟩ := (evaluate_arithmetic k').mp hy
    exact j.settle_upToSign (op.apply_upToSign (ha.values hp hp') (hb.values hq hq'))
  | comparison op =>
    obtain ⟨p, q, hp, hq, rfl⟩ := evaluate_comparison.mp hx
    obtain ⟨p', q', hp', hq', rfl⟩ := evaluate_comparison.mp hy
    rw [op.holds_upToSign (ha.values hp hp') (hb.values hq hq')]
    exact .refl _
  | connective op =>
    rcases evaluate_connective.mp hx with ⟨hs, rfl⟩ | ⟨hs, u, hu, rfl⟩
    · rcases evaluate_connective.mp hy with ⟨ht, rfl⟩ | ⟨ht, v, hv, rfl⟩
      · exact .refl _
      · exact absurd (ha.truth hs ht) (by simp)
    · rcases evaluate_connective.mp hy with ⟨ht, rfl⟩ | ⟨ht, v, hv, rfl⟩
      · exact absurd (ha.truth hs ht) (by simp)
      · rw [hb.truth hu hv]
        exact .refl _
  | percent =>
    obtain ⟨p, q, hp, hq, rfl⟩ := (evaluate_percent k).mp hx
    obtain ⟨p', q', hp', hq', rfl⟩ := (evaluate_percent k').mp hy
    exact j.settle_upToSign (percentOf_upToSign (ha.values hp hp') (hb.values hq hq'))
  | lag =>
    obtain ⟨l, m, ka, -, hr⟩ := hasKind_binary.mp k
    have hquote := (Kind.ofQuote?_eq_some (Binary.rule_lag.mp hr).1).1
    obtain ⟨source, symbol, q, f, hsource, hsymbol, hq, hfin, hf, rfl⟩ := evaluate_lag.mp hx
    obtain ⟨source', symbol', q', f', hsource', hsymbol', hq', -, hf', rfl⟩ := evaluate_lag.mp hy
    cases hsource.symm.trans hsource'
    cases hsymbol.symm.trans hsymbol'
    cases ha.field_eq ka hquote hf hf'
    rw [hb.truncate_eq hq hq' hfin]
    exact .refl _
  | rsi =>
    obtain ⟨source, symbol, p, q, hsource, hsymbol, hp, hpfin, hq, hqfin, -, rfl⟩ :=
      evaluate_rsi.mp hx
    obtain ⟨source', symbol', p', q', hsource', hsymbol', hp', -, hq', -, -, rfl⟩ :=
      evaluate_rsi.mp hy
    cases hsource.symm.trans hsource'
    cases hsymbol.symm.trans hsymbol'
    rw [ha.truncate_eq hp hp' hpfin, hb.truncate_eq hq hq' hqfin]
    exact .refl _

/-- The operands of a commutative operation may change places. -/
theorem exchange {op : Binary} (hop : op.commutative = true) (ha : SameValue env a b')
    (hb : SameValue env b a') (k : (Expr.binary op a b).HasKind j)
    (k' : (Expr.binary op a' b').HasKind j) :
    SameValue env (.binary op a b) (.binary op a' b') := by
  refine of_operation rfl fun hx hy => ?_
  cases op with
  | arithmetic op =>
    obtain ⟨p, q, hp, hq, rfl⟩ := (evaluate_arithmetic k).mp hx
    obtain ⟨p', q', hp', hq', rfl⟩ := (evaluate_arithmetic k').mp hy
    rw [op.apply_swap hop p' q']
    exact j.settle_upToSign (op.apply_upToSign (ha.values hp hq') (hb.values hq hp'))
  | comparison op =>
    obtain ⟨p, q, hp, hq, rfl⟩ := evaluate_comparison.mp hx
    obtain ⟨p', q', hp', hq', rfl⟩ := evaluate_comparison.mp hy
    rw [op.holds_swap hop p' q', op.holds_upToSign (ha.values hp hq') (hb.values hq hp')]
    exact .refl _
  | connective op =>
    -- The operand that decides one order is the second in the other, unless the first decides, too.
    rcases evaluate_connective.mp hx with ⟨hs, rfl⟩ | ⟨hs, u, hu, rfl⟩
    · rcases evaluate_connective.mp hy with ⟨ht, rfl⟩ | ⟨ht, v, hv, rfl⟩
      · exact .refl _
      · rw [ha.truth hs hv]
        exact .refl _
    · rcases evaluate_connective.mp hy with ⟨ht, rfl⟩ | ⟨ht, v, hv, rfl⟩
      · rw [hb.truth hu ht]
        exact .refl _
      · rw [hb.truth hu ht, ha.truth hs hv]
        exact .refl _
  | percent | lag | rsi => cases hop

theorem ternary {op : Ternary} (ha : SameValue env a a') (hb : SameValue env b b')
    (hc : SameValue env c c') (k : (Expr.ternary op a b c).HasKind j)
    (k' : (Expr.ternary op a' b' c').HasKind j) :
    SameValue env (.ternary op a b c) (.ternary op a' b' c') := by
  refine of_operation rfl fun hx hy => ?_
  obtain ⟨l, m, n, ka, -, -, hr⟩ := hasKind_ternary.mp k
  cases op with
  | choice =>
    obtain ⟨s, hs, hx⟩ := evaluate_choice.mp hx
    obtain ⟨t, ht, hy⟩ := evaluate_choice.mp hy
    cases ha.truth hs ht
    cases s with
    | true => exact hb.values hx hy
    | false => exact hc.values hx hy
  | statistic s =>
    have hquote := (Kind.ofQuote?_eq_some (Ternary.rule_statistic.mp hr).1).1
    obtain ⟨source, symbol, p, o, f, hsource, hsymbol, hp, hpfin, ho, hofin, -, hf, rfl⟩ :=
      (evaluate_statistic k).mp hx
    obtain ⟨source', symbol', p', o', f', hsource', hsymbol', hp', -, ho', -, -, hf', rfl⟩ :=
      (evaluate_statistic k').mp hy
    cases hsource.symm.trans hsource'
    cases hsymbol.symm.trans hsymbol'
    cases ha.field_eq ka hquote hf hf'
    rw [hb.truncate_eq hp hp' hpfin, hc.truncate_eq ho ho' hofin]
    exact .refl _
  | correlation partner =>
    obtain ⟨⟨number, hj⟩, -, -, -⟩ := Ternary.rule_correlation.mp hr
    have hquote := (Kind.ofQuote?_eq_some hj).1
    obtain ⟨source, symbol, other, p, o, f, hsource, hsymbol, hother, hp, hpfin, ho, hofin, -, hf,
      rfl⟩ := evaluate_correlation.mp hx
    obtain ⟨source', symbol', other', p', o', f', hsource', hsymbol', hother', hp', -, ho', -, -,
      hf', rfl⟩ := evaluate_correlation.mp hy
    cases hsource.symm.trans hsource'
    cases hsymbol.symm.trans hsymbol'
    cases hother.symm.trans hother'
    cases ha.field_eq ka hquote hf hf'
    rw [hb.truncate_eq hp hp' hpfin, hc.truncate_eq ho ho' hofin]
    exact .refl _

theorem quaternary {op : Quaternary} (ha : SameValue env a a') (hb : SameValue env b b')
    (hc : SameValue env c c') (hd : SameValue env d d') (k : (Expr.quaternary op a b c d).HasKind j)
    (k' : (Expr.quaternary op a' b' c' d').HasKind j) :
    SameValue env (.quaternary op a b c d) (.quaternary op a' b' c' d') := by
  refine of_operation rfl fun hx hy => ?_
  obtain ⟨l, m, n, r, ka, -, -, -, hr⟩ := hasKind_quaternary.mp k
  cases op with
  | ema =>
    have hquote := (Kind.ofQuote?_eq_some (Quaternary.rule_ema.mp hr).1).1
    obtain ⟨source, symbol, p, o, w, f, hw, hleast, -, hsource, hsymbol, hp, hpfin, ho, hofin, -, hf,
      rfl⟩ := (evaluate_ema k).mp hx
    obtain ⟨source', symbol', p', o', w', f', hw', -, -, hsource', hsymbol', hp', -, ho', -, -, hf',
      rfl⟩ := (evaluate_ema k').mp hy
    -- A smoothing constant is not zero, so it is the same double.
    have hsmoothing : w = w' := by
      rcases hd.values hw hw' with rfl | ⟨hzero, -⟩
      · rfl
      · exact absurd (((UpToSign.refl _).le_iff (.of_beq_zero hzero)).mp hleast) (by decide +kernel)
    cases hsource.symm.trans hsource'
    cases hsymbol.symm.trans hsymbol'
    cases ha.field_eq ka hquote hf hf'
    rw [hb.truncate_eq hp hp' hpfin, hc.truncate_eq ho ho' hofin, hsmoothing]
    exact .refl _

end SameValue

/-! ## Equal trees -/

theorem Rearranged.sameValue (h : Equal a b) (ka : a.HasKind k) : SameValue env a b := by
  induction h generalizing k with
  | leaf h => exact .leaf h
  | unary op ha iha =>
    obtain ⟨j, kx, -⟩ := hasKind_unary.mp ka
    exact .unary (iha kx) ka (Rearranged.hasKind (fun _ => id) (.unary op ha) ka)
  | binary op ha hb iha ihb =>
    obtain ⟨j, l, kx, ky, -⟩ := hasKind_binary.mp ka
    exact .binary (iha kx) (ihb ky) ka (Rearranged.hasKind (fun _ => id) (.binary op ha hb) ka)
  | exchange hop ha hb iha ihb =>
    obtain ⟨j, l, kx, ky, -⟩ := hasKind_binary.mp ka
    exact .exchange hop (iha kx) (ihb ky) ka
      (Rearranged.hasKind (fun _ => id) (.exchange hop ha hb) ka)
  | ternary op ha hb hc iha ihb ihc =>
    obtain ⟨j, l, m, kx, ky, kz, -⟩ := hasKind_ternary.mp ka
    exact .ternary (iha kx) (ihb ky) (ihc kz) ka
      (Rearranged.hasKind (fun _ => id) (.ternary op ha hb hc) ka)
  | quaternary op ha hb hc hd iha ihb ihc ihd =>
    obtain ⟨j, l, m, n, kx, ky, kz, kw, -⟩ := hasKind_quaternary.mp ka
    exact .quaternary (iha kx) (ihb ky) (ihc kz) (ihd kw) ka
      (Rearranged.hasKind (fun _ => id) (.quaternary op ha hb hc hd) ka)

/-- Trees that are the same have equal values, or NaN both, in every environment in which they have
values. -/
theorem same_values (ka : a.HasKind k) (h : a.same b = true) (hx : a.evaluate env = .ok x)
    (hy : b.evaluate env = .ok y) : (x == y) = true ∨ x.isNaN = true ∧ y.isNaN = true :=
  (((same_iff.mp h).sameValue ka).values hx hy).beq_or_isNaN

/-- The change of a price, as a variable. -/
def change : Expr :=
  .leaf (.variable "change" .float)

/-- An environment without market data in which the price has fallen by two. -/
def afterFall : Environment where
  bindings := ⟨[{ name := "change", kind := .float, constant := false, value := -2.0 }]⟩
  source := none
  symbol := none
  day := 0

/-- The change times zero. -/
def changeTimesZero : Expr :=
  arithmetic .multiply change (number (.real 0.0 zero_isFinite))

/-- Negative zero times the change. -/
def zeroTimesChange : Expr :=
  arithmetic .multiply (number (.real (-0.0) negative_zero_isFinite)) change

/-- The two products are equal zeros, though not of one sign. -/
theorem same_values_zero :
    ∃ x y, changeTimesZero.evaluate afterFall = .ok x ∧ zeroTimesChange.evaluate afterFall = .ok y ∧
      x ≠ y ∧ ((x == y) = true ∨ x.isNaN = true ∧ y.isNaN = true) := by
  have hx : changeTimesZero.evaluate afterFall = .ok (-0.0) := by decide +kernel
  have hy : zeroTimesChange.evaluate afterFall = .ok 0.0 := by decide +kernel
  refine ⟨_, _, hx, hy, by decide +kernel, ?_⟩
  exact same_values (k := .float) (by rfl) (by decide +kernel) hx hy

end Expr

end TradeRules
