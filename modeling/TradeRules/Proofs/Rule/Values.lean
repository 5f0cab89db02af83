import TradeRules.Proofs.Rule.Reached

/-!
# Kinds and values

The kind of a tree says what its value can be (`evaluate_sound`).  A truth value is zero or one, and a
whole number has no fraction unless it is infinite or NaN.

Results of arithmetic and statistics are settled to their kind.  Other nodes pass values on: variables,
single quotes, and the branches of a choice.  So the variables have to hold numbers of their kinds, and
the volumes, which are the only quotes of whole numbers, have to be whole.
-/

namespace TradeRules

open Double

variable {env : Environment} {k : Kind} {x : Float}

/-- Whether the volumes that an environment reads are whole numbers. -/
def Environment.WholeVolumes (env : Environment) : Prop :=
  ∀ source symbol day x, env.source = some source → env.symbol = some symbol →
    source.quote? symbol .volume day = some x → IsWhole x

/-! ## Numbers of a kind -/

/-- The numbers that an expression of a kind can come to. -/
def Kind.Admits : Kind → Float → Prop
  | .boolean, x => x = 0.0 ∨ x = 1.0
  | .integer, x => IsWhole x ∨ x.isFinite = false
  | _, _ => True

namespace Kind

theorem admits_toNumber (t : Bool) : Kind.boolean.Admits (Truth.toNumber t) := by
  cases t with
  | false => exact .inl rfl
  | true => exact .inr rfl

/-- Doubles that are rounded integers are whole. -/
theorem admits_of_isRounding {n : ℤ} (h : IsRounding x n) : Kind.integer.Admits x := by
  cases hx : x.isFinite with
  | false => exact .inr hx
  | true =>
    obtain ⟨m, hm⟩ := nearest_intCast n
    exact .inl (isWhole_of_exact hx (n := m) (by rw [h.value hx, hm]))

theorem admits_zero : Kind.integer.Admits 0.0 :=
  .inl (isWhole_of_exact zero_exact.1 (n := 0) (by rw [zero_exact.2, Int.cast_zero]))

/-- A settled number is one of its kind. -/
theorem admits_settle (hk : k.isNumeric = true) (x : Float) : k.Admits (k.settle x) := by
  cases k with
  | boolean => cases hk
  | integer =>
    cases hx : x.isFinite with
    | false => exact .inr (Bool.eq_false_iff.mpr fun h => by rw [isFinite_of_settle h] at hx; cases hx)
    | true => exact .inl (settle_integer_isWhole hx)
  | float => trivial
  | integerQuote => cases hk
  | floatQuote => cases hk

end Kind

/-- The volume on a day is whole, and zero without a quote. -/
theorem Environment.WholeVolumes.single {source : Source} {symbol : Symbol} (h : env.WholeVolumes)
    (hsource : env.source = some source) (hsymbol : env.symbol = some symbol) (day offset : ℤ) :
    Kind.integer.Admits (source.single symbol .volume day offset) := by
  unfold Source.single
  cases hquote : source.quote? symbol .volume (day + offset) with
  | none => exact Kind.admits_zero
  | some v => exact .inl (h source symbol _ v hsource hsymbol hquote)

namespace Expr

variable {a b c d e : Expr} {j l : Kind}

/-! ## Values of trees -/

/-- Whether a variable of a kind holds a number of that kind. -/
def HoldsKind (env : Environment) (k : Kind) (e : Expr) : Prop :=
  ∀ name v x, e = .leaf (.variable name v) → v.kind = k → e.evaluate env = .ok x → k.Admits x

theorem admits_leaf : ∀ {l : Leaf}, l.kind = k → HoldsKind env k (.leaf l) →
    (leaf l).evaluate env = .ok x → k.Admits x
  | .number (.whole n _), hk, _, hx => by
    cases hk
    cases hx
    exact Kind.admits_of_isRounding (ofInt_isRounding n)
  | .number (.real _ _), hk, _, _ => by
    cases hk
    trivial
  | .truth t, hk, _, hx => by
    cases hk
    cases hx
    exact Kind.admits_toNumber t
  | .variable name v, hk, hheld, hx => hheld name v x rfl hk hx
  | .quote f, hk, _, _ => by cases f <;> cases hk <;> trivial
  | .date part, hk, _, hx => by
    cases hk
    simp only [evaluate, Environment.leaf, Environment.datePart] at hx
    split at hx
    · cases hx
    · obtain ⟨d, -, hd⟩ := bind_eq_ok.mp hx
      rw [pure_eq_ok] at hd
      rw [hd]
      exact Kind.admits_of_isRounding (ofNat_isRounding (part.of d))

/-- The value of a well-typed tree is a number of its kind, when those of the variables of the kind are
that evaluation comes to. -/
theorem admits_of_evaluate (hvol : env.WholeVolumes) : ∀ {e : Expr} {x : Float}, e.HasKind k →
    e.Reached env (HoldsKind env k) → e.evaluate env = .ok x → k.Admits x := by
  intro e
  induction e with
  | leaf l => exact fun hk hheld hx => admits_leaf (hasKind_leaf.mp hk) hheld hx
  | unary op a iha =>
    intro x hk hheld hx
    obtain ⟨j, ha, hr⟩ := hasKind_unary.mp hk
    cases op with
    | not =>
      obtain ⟨t, -, rfl⟩ := evaluate_not.mp hx
      obtain ⟨-, rfl⟩ := Unary.rule_not.mp hr
      exact Kind.admits_toNumber _
    | sqrt =>
      obtain ⟨hnum, rfl⟩ := Unary.rule_sqrt.mp hr
      obtain ⟨z, -, rfl⟩ := (evaluate_sqrt hk).mp hx
      exact Kind.admits_settle hnum _
    | abs =>
      obtain ⟨hnum, rfl⟩ := Unary.rule_abs.mp hr
      obtain ⟨z, -, rfl⟩ := (evaluate_abs hk).mp hx
      exact Kind.admits_settle hnum _
  | binary op a b iha ihb =>
    intro x hk hheld hx
    obtain ⟨j, l, ha, hb, hr⟩ := hasKind_binary.mp hk
    cases op with
    | arithmetic op =>
      obtain ⟨rfl, hnum, rfl⟩ := Binary.rule_arithmetic.mp hr
      obtain ⟨u, v, -, -, rfl⟩ := (evaluate_arithmetic hk).mp hx
      exact Kind.admits_settle hnum _
    | comparison op =>
      obtain ⟨-, -, rfl⟩ := Binary.rule_comparison.mp hr
      obtain ⟨u, v, -, -, rfl⟩ := evaluate_comparison.mp hx
      exact Kind.admits_toNumber _
    | connective op =>
      obtain ⟨-, -, rfl⟩ := Binary.rule_connective.mp hr
      rcases evaluate_connective.mp hx with ⟨-, rfl⟩ | ⟨-, t, -, rfl⟩
      · exact Kind.admits_toNumber _
      · exact Kind.admits_toNumber t
    | percent =>
      obtain ⟨hnum, -, rfl⟩ := Binary.rule_percent.mp hr
      obtain ⟨u, v, -, -, rfl⟩ := (evaluate_percent hk).mp hx
      exact Kind.admits_settle hnum _
    | lag =>
      obtain ⟨source, symbol, z, f, hs, hsym, -, -, hf, rfl⟩ := evaluate_lag.mp hx
      obtain ⟨hj, -⟩ := Binary.rule_lag.mp hr
      obtain ⟨g, rfl, rfl⟩ := ha.eq_quote (Kind.ofQuote?_eq_some hj).1
      cases hf
      cases f with
      | volume =>
        cases hj
        exact hvol.single hs hsym _ _
      | opening | high | low | closing =>
        cases hj
        trivial
    | rsi =>
      obtain ⟨-, -, rfl⟩ := Binary.rule_rsi.mp hr
      trivial
  | ternary op a b c iha ihb ihc =>
    intro x hk hheld hx
    obtain ⟨j, l, m, ha, hb, hc, hr⟩ := hasKind_ternary.mp hk
    cases op with
    | choice =>
      obtain ⟨-, rfl, -, rfl⟩ := Ternary.rule_choice.mp hr
      obtain ⟨t, ht, hbranch⟩ := evaluate_choice.mp hx
      cases t with
      | true => exact ihb hb (hheld.2.2.1 fun _ => ht) hbranch
      | false => exact ihc hc (hheld.2.2.2 fun _ => ht) hbranch
    | statistic s =>
      obtain ⟨hj, -, -⟩ := Ternary.rule_statistic.mp hr
      obtain ⟨source, symbol, u, v, f, -, -, -, -, -, -, -, -, rfl⟩ := (evaluate_statistic hk).mp hx
      exact Kind.admits_settle (Kind.ofQuote?_eq_some hj).2 _
    | correlation partner =>
      obtain ⟨-, -, -, rfl⟩ := Ternary.rule_correlation.mp hr
      trivial
  | quaternary op a b c d iha ihb ihc ihd =>
    intro x hk hheld hx
    obtain ⟨j, l, m, n, ha, hb, hc, hd, hr⟩ := hasKind_quaternary.mp hk
    cases op with
    | ema =>
      obtain ⟨hj, -, -, -⟩ := Quaternary.rule_ema.mp hr
      obtain ⟨source, symbol, u, v, w, f, -, -, -, -, -, -, -, -, -, -, -, rfl⟩ :=
        (evaluate_ema hk).mp hx
      exact Kind.admits_settle (Kind.ofQuote?_eq_some hj).2 _

/-- Whether the variables of a tree hold numbers of their kinds. -/
structure Suits (env : Environment) (e : Expr) : Prop where
  whole : ∀ path name v, (path, .leaf (.variable name .integer)) ∈ e.sites →
    env.bindings.get? name = some v → IsWhole v.value
  truth : ∀ path name v, (path, .leaf (.variable name .boolean)) ∈ e.sites →
    env.bindings.get? name = some v → v.value = 0.0 ∨ v.value = 1.0

theorem evaluate_variable {name : String} {kind : ValueKind} :
    (leaf (.variable name kind)).evaluate env = .ok x ↔
      ∃ v, env.bindings.get? name = some v ∧ x = v.value := by
  simp only [evaluate, Environment.leaf]
  cases env.bindings.get? name with
  | none => simp
  | some v => simp [eq_comm]

theorem Suits.holdsKind (h : e.Suits env) (k : Kind) : e.Everywhere (HoldsKind env k) := by
  refine everywhere_iff.mpr fun site hsite name kind x hleaf hkind hx => ?_
  rw [hleaf] at hx
  obtain ⟨v, hv, rfl⟩ := evaluate_variable.mp hx
  subst hkind
  obtain ⟨path, a⟩ := site
  obtain rfl : a = .leaf (.variable name kind) := hleaf
  cases kind with
  | boolean => exact h.truth path name v hsite hv
  | integer => exact .inl (h.whole path name v hsite hv)
  | float => trivial

/-- Kinds are sound for values: a well-typed tree of truth values can only come to zero or one, and one
of whole numbers to a whole number, an infinity or NaN. -/
theorem evaluate_sound (hk : e.HasKind k) (hsuits : e.Suits env) (hvol : env.WholeVolumes)
    (hx : e.evaluate env = .ok x) :
    (k = .boolean → x = 0.0 ∨ x = 1.0) ∧ (k = .integer → IsWhole x ∨ x.isFinite = false) := by
  have hadmits : k.Admits x := admits_of_evaluate hvol hk (hsuits.holdsKind k).reached hx
  constructor
  · rintro rfl
    exact hadmits
  · rintro rfl
    exact hadmits

/-- The held days as an expression, and an environment in which they are three. -/
def sampleHeld : Expr :=
  .leaf (.variable Variables.heldName .integer)

/-- An environment without market data in which the stock has been held for three days. -/
def sampleDays : Environment :=
  { bindings := Variables.ofRule 3.0 0.0, source := none, symbol := none, day := 0 }

/-- Half of three held days is a whole number, since the fraction is lost. -/
theorem evaluate_sound_held :
    ∃ x, (arithmetic .divide sampleHeld (number (.whole 2 (by decide +kernel)))).evaluate sampleDays =
        .ok x ∧
      (Kind.integer = .boolean → x = 0.0 ∨ x = 1.0) ∧
      (Kind.integer = .integer → IsWhole x ∨ x.isFinite = false) := by
  have hwhole : ∀ name v, sampleDays.bindings.get? name = some v → IsWhole v.value := by
    intro name v hv
    have hmem : v ∈ (Variables.ofRule 3.0 0.0).toList := List.mem_of_find?_eq_some hv
    simp only [Variables.ofRule, List.mem_cons, List.not_mem_nil, or_false] at hmem
    rcases hmem with rfl | rfl
    · exact ⟨by decide +kernel, by decide +kernel⟩
    · exact ⟨by decide +kernel, by decide +kernel⟩
  have heval : (arithmetic .divide sampleHeld (number (.whole 2 (by decide +kernel)))).evaluate
      sampleDays = .ok 1.0 := by
    decide +kernel
  refine ⟨1.0, heval, evaluate_sound (by rfl) ⟨fun _ name v _ hv => hwhole name v hv, ?_⟩ ?_ heval⟩
  · -- The tree has no variable of truth values.
    intro path name v hsite
    simp [sites, inOperand, sampleHeld] at hsite
  · exact fun _ _ _ _ hsource => by cases hsource

end Expr

end TradeRules
