import TradeRules.Proofs.Market.Layout
import TradeRules.Proofs.Rule.Failure
import TradeRules.Proofs.Rule.Guarded
import TradeRules.Proofs.Rule.Sites
import TradeRules.Proofs.Rule.Values

/-!
# Why evaluation fails

A well-typed tree whose variables are declared, evaluated with market data on a day of its calendar, has a
value unless evaluation comes to a quote function with an argument it cannot use (`Expr.Unusable`): a
period or offset that is infinite or NaN, a period that is too short, a smoothing constant out of range, or
a partner that is no symbol.  A quote that is missing is no reason.

Evaluation goes from left to right and stops at the first failure, so which operands it comes to depends
on the values of those before (`Expr.Demands`).  `Expr.Meets` are the nodes that it comes to.  One of them
is unusable exactly when evaluation fails (`Expr.evaluate_fails_for_arguments`), and the error is about an
argument.
-/

namespace TradeRules

/-- Whether an error is about the argument of a quote function. -/
inductive EvalError.OfArgument : EvalError → Prop
  | infinite (text : String) (value : Float) : OfArgument (.infiniteArgument text value)
  | notPositive (text : String) (period : Int) : OfArgument (.periodNotPositive text period)
  | tooShort (text : String) (period : Int) : OfArgument (.periodTooShort text period)
  | smoothing (value : Float) : OfArgument (.smoothingRange value)
  | partner (text : String) (e : Symbol.Error) : OfArgument (.badPartner text e)

namespace Expr

open Double

/-! ## Nodes that evaluation comes to -/

/-- Whether a tree comes to a smoothing constant in the range. -/
def Smooths (env : Environment) (e : Expr) : Prop :=
  ∃ x, e.evaluate env = .ok x ∧ Smoothing.least ≤ x ∧ x ≤ Smoothing.greatest

/-- Whether evaluation goes on to an operand, with market data at hand.  The first operand of a quote
function names a field and is not evaluated. -/
inductive Demands (env : Environment) : Expr → Expr → Prop
  | unary {op : Unary} {a : Expr} : Demands env (.unary op a) a
  | first {op : Binary} {a b : Expr} (hop : op ≠ .lag) : Demands env (.binary op a b) a
  | arithmetic {op : Arithmetic} {a b : Expr} {x : Float} (ha : a.evaluate env = .ok x) :
    Demands env (.arithmetic op a b) b
  | comparison {op : Comparison} {a b : Expr} {x : Float} (ha : a.evaluate env = .ok x) :
    Demands env (.comparison op a b) b
  | connective {op : Connective} {a b : Expr} (ha : a.ComesTo env op.neutral) :
    Demands env (.connective op a b) b
  | percent {a b : Expr} {x : Float} (ha : a.evaluate env = .ok x) :
    Demands env (.binary .percent a b) b
  | lagOffset {a b : Expr} : Demands env (.binary .lag a b) b
  | rsiOffset {a b : Expr} (ha : a.Defined env) : Demands env (.binary .rsi a b) b
  | condition {c a b : Expr} : Demands env (.choice c a b) c
  | branch {c a b : Expr} {t : Bool} (hc : c.ComesTo env t) :
    Demands env (.choice c a b) (if t then a else b)
  | statisticPeriod {s : Statistic} {a b c : Expr} : Demands env (.ternary (.statistic s) a b c) b
  | statisticOffset {s : Statistic} {a b c : Expr} (hb : b.Defined env) :
    Demands env (.ternary (.statistic s) a b c) c
  | correlationPeriod {partner : String} {other : Symbol} {a b c : Expr}
    (hpartner : Symbol.parse partner = .ok other) :
    Demands env (.ternary (.correlation partner) a b c) b
  | correlationOffset {partner : String} {other : Symbol} {a b c : Expr}
    (hpartner : Symbol.parse partner = .ok other) (hb : b.Defined env) :
    Demands env (.ternary (.correlation partner) a b c) c
  | smoothing {a b c d : Expr} : Demands env (.quaternary .ema a b c d) d
  | emaPeriod {a b c d : Expr} (hd : d.Smooths env) : Demands env (.quaternary .ema a b c d) b
  | emaOffset {a b c d : Expr} (hd : d.Smooths env) (hb : b.Defined env) :
    Demands env (.quaternary .ema a b c d) c

/-- Whether evaluation comes to a node. -/
inductive Meets (env : Environment) : Expr → Expr → Prop
  | root (e : Expr) : Meets env e e
  | operand {e a n : Expr} (ha : Demands env e a) (hn : Meets env a n) : Meets env e n

/-! ## Arguments that cannot be used -/

/-- Whether the value of an offset is infinite or NaN. -/
def BadOffset (env : Environment) (e : Expr) : Prop :=
  ∃ x, e.evaluate env = .ok x ∧ x.isFinite = false

/-- Whether the value of a period is infinite or NaN, or less than the shortest period without its
fraction. -/
def BadPeriod (env : Environment) (shortest : Int) (e : Expr) : Prop :=
  ∃ x, e.evaluate env = .ok x ∧ (x.isFinite = false ∨ truncate x < shortest)

/-- Whether the value of a smoothing constant is out of range or NaN. -/
def BadSmoothing (env : Environment) (e : Expr) : Prop :=
  ∃ x, e.evaluate env = .ok x ∧ ¬(Smoothing.least ≤ x ∧ x ≤ Smoothing.greatest)

/-- Whether a node is a quote function with an argument that it cannot use. -/
inductive Unusable (env : Environment) : Expr → Prop
  | lagOffset {a b : Expr} (h : b.BadOffset env) : Unusable env (.binary .lag a b)
  | rsiPeriod {a b : Expr} (h : a.BadPeriod env 1) : Unusable env (.binary .rsi a b)
  | rsiOffset {a b : Expr} (h : b.BadOffset env) : Unusable env (.binary .rsi a b)
  | statisticPeriod {s : Statistic} {a b c : Expr} (h : b.BadPeriod env 1) :
    Unusable env (.ternary (.statistic s) a b c)
  | statisticOffset {s : Statistic} {a b c : Expr} (h : c.BadOffset env) :
    Unusable env (.ternary (.statistic s) a b c)
  | partner {partner : String} {error : Symbol.Error} {a b c : Expr}
    (h : Symbol.parse partner = .error error) : Unusable env (.ternary (.correlation partner) a b c)
  | correlationPeriod {partner : String} {a b c : Expr} (h : b.BadPeriod env 2) :
    Unusable env (.ternary (.correlation partner) a b c)
  | correlationOffset {partner : String} {a b c : Expr} (h : c.BadOffset env) :
    Unusable env (.ternary (.correlation partner) a b c)
  | smoothing {a b c d : Expr} (h : d.BadSmoothing env) : Unusable env (.quaternary .ema a b c d)
  | emaPeriod {a b c d : Expr} (h : b.BadPeriod env 1) : Unusable env (.quaternary .ema a b c d)
  | emaOffset {a b c d : Expr} (h : c.BadOffset env) : Unusable env (.quaternary .ema a b c d)

variable {env : Environment} {a b c d e n : Expr} {j k : Kind} {r : Float}

theorem not_badOffset {x : Float} (hx : e.evaluate env = .ok x) (hfin : x.isFinite = true) :
    ¬e.BadOffset env := by
  rintro ⟨y, hy, hbad⟩
  obtain rfl := Except.ok.inj (hx.symm.trans hy)
  exact Bool.false_ne_true (hbad.symm.trans hfin)

theorem not_badPeriod {x : Float} {shortest : Int} (hx : e.evaluate env = .ok x)
    (hfin : x.isFinite = true) (hlong : shortest ≤ truncate x) : ¬e.BadPeriod env shortest := by
  rintro ⟨y, hy, hbad | hshort⟩
  · exact not_badOffset hx hfin ⟨y, hy, hbad⟩
  · obtain rfl := Except.ok.inj (hx.symm.trans hy)
    exact not_lt.mpr hlong hshort

theorem Smooths.not_badSmoothing (h : e.Smooths env) : ¬e.BadSmoothing env := by
  rintro ⟨y, hy, hbad⟩
  obtain ⟨x, hx, hrange⟩ := h
  obtain rfl := Except.ok.inj (hx.symm.trans hy)
  exact hbad hrange

/-! ## A value, when all arguments can be used -/

/-- What evaluation needs besides arguments that can be used. -/
structure Provided (env : Environment) (source : Source) (symbol : Symbol) : Prop where
  hasSource : env.source = some source
  hasSymbol : env.symbol = some symbol
  /-- The reference day lies in the calendar. -/
  day : 0 ≤ env.day ∧ env.day ≤ source.lastDay

/-- Whether a node is no variable that is not declared. -/
def IsDeclared (env : Environment) (e : Expr) : Prop :=
  ∀ name kind, e = .leaf (.variable name kind) → env.bindings.contains name = true

theorem evaluate_leaf {source : Source} {symbol : Symbol} {l : Leaf} (h : Provided env source symbol)
    (hdeclared : IsDeclared env (.leaf l)) : ∃ x, (leaf l).evaluate env = .ok x := by
  cases l with
  | number l => exact ⟨_, rfl⟩
  | truth t => exact ⟨_, rfl⟩
  | «variable» name kind =>
    obtain ⟨v, hv⟩ := Option.isSome_iff_exists.mp (hdeclared name kind rfl)
    exact ⟨v.value, evaluate_variable.mpr ⟨v, hv, rfl⟩⟩
  | quote f =>
    refine ⟨source.single symbol f env.day 0, ?_⟩
    exact bind_of_ok (Environment.quotesFor_eq_ok.mpr ⟨h.hasSource, h.hasSymbol⟩)
  | date part =>
    have hlast : env.day ≤ (source.calendar.size : Int) - 1 := h.day.2
    have hlt : env.day.toNat < source.calendar.size := by
      have := h.day.1
      omega
    have hdate : source.date env.day = .ok source.calendar[env.day.toNat] :=
      Source.date_eq_ok.mpr ⟨h.day.1, Array.getElem?_eq_getElem hlt⟩
    refine ⟨Double.ofNat (part.of source.calendar[env.day.toNat]), ?_⟩
    show env.datePart part = _
    unfold Environment.datePart
    rw [h.hasSource]
    dsimp only
    rw [hdate]
    rfl

/-- The value of an offset that is not bad is finite. -/
theorem defined_of_offset (h : ∃ x, e.evaluate env = .ok x) (hbad : ¬e.BadOffset env) :
    e.Defined env := by
  obtain ⟨x, hx⟩ := h
  refine ⟨x, hx, ?_⟩
  rw [← Bool.not_eq_false]
  exact fun hfin => hbad ⟨x, hx, hfin⟩

/-- The value of a period that is not bad is finite, and the period is long enough. -/
theorem defined_of_period {shortest : Int} (h : ∃ x, e.evaluate env = .ok x)
    (hbad : ¬e.BadPeriod env shortest) :
    ∃ x, e.evaluate env = .ok x ∧ x.isFinite = true ∧ shortest ≤ truncate x := by
  obtain ⟨x, hx⟩ := h
  refine ⟨x, hx, ?_, ?_⟩
  · rw [← Bool.not_eq_false]
    exact fun hfin => hbad ⟨x, hx, .inl hfin⟩
  · exact not_lt.mp fun hlt => hbad ⟨x, hx, .inr hlt⟩

theorem smooths_of_smoothing (h : ∃ x, e.evaluate env = .ok x) (hbad : ¬e.BadSmoothing env) :
    e.Smooths env := by
  obtain ⟨x, hx⟩ := h
  exact ⟨x, hx, not_not.mp fun hrange => hbad ⟨x, hx, hrange⟩⟩

/-- A tree has a value when evaluation comes to no unusable node. -/
theorem exists_value {source : Source} {symbol : Symbol} (hk : e.HasKind k)
    (h : Provided env source symbol) (hdeclared : e.Everywhere (IsDeclared env))
    (husable : ∀ n, Meets env e n → ¬Unusable env n) : ∃ x, e.evaluate env = .ok x := by
  induction e generalizing k with
  | leaf l => exact evaluate_leaf h hdeclared
  | unary op a iha =>
    obtain ⟨j, ka, -⟩ := hasKind_unary.mp hk
    obtain ⟨x, hx⟩ := iha ka hdeclared.2 fun n hn => husable n (.operand .unary hn)
    cases op with
    | not => exact ⟨_, evaluate_not.mpr ⟨_, ⟨x, hx, rfl⟩, rfl⟩⟩
    | sqrt => exact ⟨_, (evaluate_sqrt hk).mpr ⟨x, hx, rfl⟩⟩
    | abs => exact ⟨_, (evaluate_abs hk).mpr ⟨x, hx, rfl⟩⟩
  | binary op a b iha ihb =>
    obtain ⟨j, l, ka, kb, hr⟩ := hasKind_binary.mp hk
    have hself := husable _ (.root _)
    have ha : op ≠ .lag → ∃ x, a.evaluate env = .ok x := fun hop =>
      iha ka hdeclared.2.1 fun n hn => husable n (.operand (.first hop) hn)
    have hb : Demands env (.binary op a b) b → ∃ y, b.evaluate env = .ok y := fun hd =>
      ihb kb hdeclared.2.2 fun n hn => husable n (.operand hd hn)
    cases op with
    | arithmetic op =>
      obtain ⟨x, hx⟩ := ha nofun
      obtain ⟨y, hy⟩ := hb (.arithmetic hx)
      exact ⟨_, (evaluate_arithmetic hk).mpr ⟨x, y, hx, hy, rfl⟩⟩
    | comparison op =>
      obtain ⟨x, hx⟩ := ha nofun
      obtain ⟨y, hy⟩ := hb (.comparison hx)
      exact ⟨_, evaluate_comparison.mpr ⟨x, y, hx, hy, rfl⟩⟩
    | connective op =>
      obtain ⟨x, hx⟩ := ha nofun
      by_cases hopen : Truth.holds x = op.neutral
      · have hcomes : a.ComesTo env op.neutral := ⟨x, hx, hopen⟩
        obtain ⟨y, hy⟩ := hb (.connective hcomes)
        exact ⟨_, evaluate_connective.mpr (.inr ⟨hcomes, _, ⟨y, hy, rfl⟩, rfl⟩)⟩
      · exact ⟨_, evaluate_connective.mpr (.inl ⟨⟨x, hx, Bool.eq_not_of_ne hopen⟩, rfl⟩)⟩
    | percent =>
      obtain ⟨x, hx⟩ := ha nofun
      obtain ⟨y, hy⟩ := hb (.percent hx)
      exact ⟨_, (evaluate_percent hk).mpr ⟨x, y, hx, hy, rfl⟩⟩
    | lag =>
      obtain ⟨f, rfl, -⟩ := ka.eq_quote (Kind.ofQuote?_eq_some (Binary.rule_lag.mp hr).1).1
      obtain ⟨y, hy, hfin⟩ := defined_of_offset (hb .lagOffset) fun hbad => hself (.lagOffset hbad)
      exact ⟨_, evaluate_lag.mpr ⟨source, symbol, y, f, h.hasSource, h.hasSymbol, hy, hfin, rfl, rfl⟩⟩
    | rsi =>
      obtain ⟨x, hx, hxfin, hpos⟩ := defined_of_period (ha nofun) fun hbad => hself (.rsiPeriod hbad)
      obtain ⟨y, hy, hyfin⟩ :=
        defined_of_offset (hb (.rsiOffset ⟨x, hx, hxfin⟩)) fun hbad => hself (.rsiOffset hbad)
      exact ⟨_, evaluate_rsi.mpr
        ⟨source, symbol, x, y, h.hasSource, h.hasSymbol, hx, hxfin, hy, hyfin, hpos, rfl⟩⟩
  | ternary op a b c iha ihb ihc =>
    obtain ⟨j, l, m, ka, kb, kc, hr⟩ := hasKind_ternary.mp hk
    have hself := husable _ (.root _)
    have hb : Demands env (.ternary op a b c) b → ∃ y, b.evaluate env = .ok y := fun hd =>
      ihb kb hdeclared.2.2.1 fun n hn => husable n (.operand hd hn)
    have hc : Demands env (.ternary op a b c) c → ∃ z, c.evaluate env = .ok z := fun hd =>
      ihc kc hdeclared.2.2.2 fun n hn => husable n (.operand hd hn)
    cases op with
    | choice =>
      obtain ⟨x, hx⟩ := iha ka hdeclared.2.1 fun n hn => husable n (.operand .condition hn)
      cases ht : Truth.holds x with
      | true =>
        obtain ⟨y, hy⟩ := hb (.branch (t := true) ⟨x, hx, ht⟩)
        exact ⟨y, evaluate_choice.mpr ⟨true, ⟨x, hx, ht⟩, hy⟩⟩
      | false =>
        obtain ⟨z, hz⟩ := hc (.branch (t := false) ⟨x, hx, ht⟩)
        exact ⟨z, evaluate_choice.mpr ⟨false, ⟨x, hx, ht⟩, hz⟩⟩
    | statistic s =>
      obtain ⟨f, rfl, -⟩ := ka.eq_quote (Kind.ofQuote?_eq_some (Ternary.rule_statistic.mp hr).1).1
      obtain ⟨y, hy, hyfin, hpos⟩ :=
        defined_of_period (hb .statisticPeriod) fun hbad => hself (.statisticPeriod hbad)
      obtain ⟨z, hz, hzfin⟩ := defined_of_offset (hc (.statisticOffset ⟨y, hy, hyfin⟩)) fun hbad =>
        hself (.statisticOffset hbad)
      exact ⟨_, (evaluate_statistic hk).mpr
        ⟨source, symbol, y, z, f, h.hasSource, h.hasSymbol, hy, hyfin, hz, hzfin, hpos, rfl, rfl⟩⟩
    | correlation partner =>
      obtain ⟨⟨number, hj⟩, -⟩ := Ternary.rule_correlation.mp hr
      obtain ⟨f, rfl, -⟩ := ka.eq_quote (Kind.ofQuote?_eq_some hj).1
      cases hpartner : Symbol.parse partner with
      | error error => exact absurd (.partner hpartner) hself
      | ok other =>
        obtain ⟨y, hy, hyfin, htwo⟩ := defined_of_period (hb (.correlationPeriod hpartner)) fun hbad =>
          hself (.correlationPeriod hbad)
        obtain ⟨z, hz, hzfin⟩ :=
          defined_of_offset (hc (.correlationOffset hpartner ⟨y, hy, hyfin⟩)) fun hbad =>
            hself (.correlationOffset hbad)
        exact ⟨_, evaluate_correlation.mpr ⟨source, symbol, other, y, z, f, h.hasSource, h.hasSymbol,
          hpartner, hy, hyfin, hz, hzfin, htwo, rfl, rfl⟩⟩
  | quaternary op a b c d iha ihb ihc ihd =>
    obtain ⟨j, l, m, n, ka, kb, kc, kd, hr⟩ := hasKind_quaternary.mp hk
    have hself := husable _ (.root _)
    cases op with
    | ema =>
      obtain ⟨f, rfl, -⟩ := ka.eq_quote (Kind.ofQuote?_eq_some (Quaternary.rule_ema.mp hr).1).1
      have hd := ihd kd hdeclared.2.2.2.2 fun n hn => husable n (.operand .smoothing hn)
      have hsmooths := smooths_of_smoothing hd fun hbad => hself (.smoothing hbad)
      have hb := ihb kb hdeclared.2.2.1 fun n hn => husable n (.operand (.emaPeriod hsmooths) hn)
      obtain ⟨y, hy, hyfin, hpos⟩ := defined_of_period hb fun hbad => hself (.emaPeriod hbad)
      have hc := ihc kc hdeclared.2.2.2.1 fun n hn =>
        husable n (.operand (.emaOffset hsmooths ⟨y, hy, hyfin⟩) hn)
      obtain ⟨z, hz, hzfin⟩ := defined_of_offset hc fun hbad => hself (.emaOffset hbad)
      obtain ⟨w, hw, hlow, hhigh⟩ := hsmooths
      exact ⟨_, (evaluate_ema hk).mpr ⟨source, symbol, y, z, w, f, hw, hlow, hhigh, h.hasSource, h.hasSymbol,
        hy, hyfin, hz, hzfin, hpos, rfl, rfl⟩⟩

/-! ## A failure, when an argument cannot be used -/

theorem Demands.hasKind (h : Demands env e a) (hk : e.HasKind k) : ∃ j, a.HasKind j := by
  cases h with
  | unary => exact hk.operand (i := 0) rfl
  | first => exact hk.operand (i := 0) rfl
  | arithmetic | comparison | connective | percent | lagOffset | rsiOffset =>
    exact hk.operand (i := 1) rfl
  | condition => exact hk.operand (i := 0) rfl
  | @branch c a b t =>
    cases t with
    | true => exact hk.operand (i := 1) rfl
    | false => exact hk.operand (i := 2) rfl
  | statisticPeriod | correlationPeriod | emaPeriod => exact hk.operand (i := 1) rfl
  | statisticOffset | correlationOffset | emaOffset => exact hk.operand (i := 2) rfl
  | smoothing => exact hk.operand (i := 3) rfl

/-- A tree has a value only if the operands that evaluation goes on to have values, and the node can use
them. -/
theorem usable_of_value (hk : e.HasKind k) (hr : e.evaluate env = .ok r) :
    (∀ a, Demands env e a → ∃ x, a.evaluate env = .ok x) ∧ ¬Unusable env e := by
  cases e with
  | leaf l => exact ⟨nofun, nofun⟩
  | unary op a =>
    refine ⟨?_, nofun⟩
    rintro _ ⟨⟩
    cases op with
    | not =>
      obtain ⟨t, ⟨x, hx, -⟩, -⟩ := evaluate_not.mp hr
      exact ⟨x, hx⟩
    | sqrt =>
      obtain ⟨x, hx, -⟩ := (evaluate_sqrt hk).mp hr
      exact ⟨x, hx⟩
    | abs =>
      obtain ⟨x, hx, -⟩ := (evaluate_abs hk).mp hr
      exact ⟨x, hx⟩
  | binary op a b =>
    cases op with
    | arithmetic op =>
      obtain ⟨x, y, hx, hy, -⟩ := (evaluate_arithmetic hk).mp hr
      refine ⟨fun n hn => ?_, nofun⟩
      cases hn with
      | first => exact ⟨x, hx⟩
      | arithmetic => exact ⟨y, hy⟩
    | comparison op =>
      obtain ⟨x, y, hx, hy, -⟩ := evaluate_comparison.mp hr
      refine ⟨fun n hn => ?_, nofun⟩
      cases hn with
      | first => exact ⟨x, hx⟩
      | comparison => exact ⟨y, hy⟩
    | connective op =>
      refine ⟨fun n hn => ?_, nofun⟩
      rcases evaluate_connective.mp hr with ⟨⟨x, hx, ht⟩, -⟩ | ⟨⟨x, hx, -⟩, t, ⟨y, hy, -⟩, -⟩
      · cases hn with
        | first => exact ⟨x, hx⟩
        | connective hopen =>
          -- The first operand has decided the connective.
          have hne := hopen.unique ⟨x, hx, ht⟩
          cases op <;> cases hne
      · cases hn with
        | first => exact ⟨x, hx⟩
        | connective => exact ⟨y, hy⟩
    | percent =>
      obtain ⟨x, y, hx, hy, -⟩ := (evaluate_percent hk).mp hr
      refine ⟨fun n hn => ?_, nofun⟩
      cases hn with
      | first => exact ⟨x, hx⟩
      | percent => exact ⟨y, hy⟩
    | lag =>
      obtain ⟨source, symbol, y, f, -, -, hy, hfin, -⟩ := evaluate_lag.mp hr
      refine ⟨fun n hn => ?_, fun hbad => ?_⟩
      · cases hn with
        | first hop => exact absurd rfl hop
        | lagOffset => exact ⟨y, hy⟩
      · cases hbad with
        | lagOffset hbad => exact not_badOffset hy hfin hbad
    | rsi =>
      obtain ⟨source, symbol, x, y, -, -, hx, hxfin, hy, hyfin, hpos, -⟩ := evaluate_rsi.mp hr
      refine ⟨fun n hn => ?_, fun hbad => ?_⟩
      · cases hn with
        | first => exact ⟨x, hx⟩
        | rsiOffset => exact ⟨y, hy⟩
      · cases hbad with
        | rsiPeriod hbad => exact not_badPeriod hx hxfin hpos hbad
        | rsiOffset hbad => exact not_badOffset hy hyfin hbad
  | ternary op a b c =>
    cases op with
    | choice =>
      refine ⟨fun n hn => ?_, nofun⟩
      obtain ⟨t, ht, hbranch⟩ := evaluate_choice.mp hr
      cases hn with
      | condition =>
        obtain ⟨x, hx, -⟩ := ht
        exact ⟨x, hx⟩
      | branch hc =>
        obtain rfl := hc.unique ht
        refine ⟨r, ?_⟩
        rw [← hbranch]
        split_ifs <;> rfl
    | statistic s =>
      obtain ⟨source, symbol, y, z, f, -, -, hy, hyfin, hz, hzfin, hpos, -⟩ :=
        (evaluate_statistic hk).mp hr
      refine ⟨fun n hn => ?_, fun hbad => ?_⟩
      · cases hn with
        | statisticPeriod => exact ⟨y, hy⟩
        | statisticOffset => exact ⟨z, hz⟩
      · cases hbad with
        | statisticPeriod hbad => exact not_badPeriod hy hyfin hpos hbad
        | statisticOffset hbad => exact not_badOffset hz hzfin hbad
    | correlation partner =>
      obtain ⟨source, symbol, other, y, z, f, -, -, hpartner, hy, hyfin, hz, hzfin, htwo, -⟩ :=
        evaluate_correlation.mp hr
      refine ⟨fun n hn => ?_, fun hbad => ?_⟩
      · cases hn with
        | correlationPeriod => exact ⟨y, hy⟩
        | correlationOffset => exact ⟨z, hz⟩
      · cases hbad with
        | partner hbad =>
          rw [hpartner] at hbad
          cases hbad
        | correlationPeriod hbad => exact not_badPeriod hy hyfin htwo hbad
        | correlationOffset hbad => exact not_badOffset hz hzfin hbad
  | quaternary op a b c d =>
    cases op with
    | ema =>
      obtain ⟨source, symbol, y, z, w, f, hw, hlow, hhigh, -, -, hy, hyfin, hz, hzfin, hpos, -⟩ :=
        (evaluate_ema hk).mp hr
      refine ⟨fun n hn => ?_, fun hbad => ?_⟩
      · cases hn with
        | smoothing => exact ⟨w, hw⟩
        | emaPeriod => exact ⟨y, hy⟩
        | emaOffset => exact ⟨z, hz⟩
      · cases hbad with
        | smoothing hbad => exact Smooths.not_badSmoothing ⟨w, hw, hlow, hhigh⟩ hbad
        | emaPeriod hbad => exact not_badPeriod hy hyfin hpos hbad
        | emaOffset hbad => exact not_badOffset hz hzfin hbad

/-- Evaluation that succeeds comes to no unusable node. -/
theorem Meets.usable (h : Meets env e n) (hk : e.HasKind k) (hr : e.evaluate env = .ok r) :
    ¬Unusable env n := by
  induction h generalizing k r with
  | root e => exact (usable_of_value hk hr).2
  | operand ha _ ih =>
    obtain ⟨j, ka⟩ := ha.hasKind hk
    obtain ⟨x, hx⟩ := (usable_of_value hk hr).1 _ ha
    exact ih ka hx

/-- Evaluation fails exactly when it comes to an unusable node. -/
theorem fails_iff {source : Source} {symbol : Symbol} (hk : e.HasKind k)
    (h : Provided env source symbol) (hdeclared : e.Everywhere (IsDeclared env)) :
    (∃ err, e.evaluate env = .error err) ↔ ∃ n, Meets env e n ∧ Unusable env n := by
  constructor
  · rintro ⟨err, herr⟩
    by_contra hnone
    obtain ⟨x, hx⟩ := exists_value hk h hdeclared fun n hn hbad => hnone ⟨n, hn, hbad⟩
    rw [herr] at hx
    cases hx
  · rintro ⟨n, hn, hbad⟩
    cases hr : e.evaluate env with
    | error err => exact ⟨err, rfl⟩
    | ok r => exact absurd hbad (hn.usable hk hr)

/-! ## The errors of evaluation -/

/-- Whether a computation fails only with errors about arguments. -/
def FailsForArguments {α : Type} (m : Except EvalError α) : Prop :=
  ∀ err, m = .error err → err.OfArgument

namespace FailsForArguments

variable {α β : Type}

theorem of_ok (x : α) : FailsForArguments (.ok x) :=
  nofun

theorem of_exists {m : Except EvalError α} (h : ∃ x, m = .ok x) : FailsForArguments m := by
  obtain ⟨x, rfl⟩ := h
  exact of_ok x

theorem throw {err : EvalError} (h : err.OfArgument) :
    FailsForArguments (.error err : Except EvalError α) := by
  rintro _ ⟨⟩
  exact h

theorem bind {m : Except EvalError α} {f : α → Except EvalError β} (h : FailsForArguments m)
    (hf : ∀ x, FailsForArguments (f x)) : FailsForArguments (m >>= f) := by
  intro err herr
  rcases bind_eq_error.mp herr with hm | ⟨x, -, hx⟩
  · exact h err hm
  · exact hf x err hx

theorem ite {p : Prop} [Decidable p] {m m' : Except EvalError α} (h : FailsForArguments m)
    (h' : FailsForArguments m') : FailsForArguments (if p then m else m') := by
  split_ifs
  · exact h
  · exact h'

theorem argument {m : Except EvalError Float} {f : Int → Except EvalError α} (h : FailsForArguments m)
    (hf : ∀ n, FailsForArguments (f n)) :
    FailsForArguments (do let n ← wholeArgument e (← m); f n) :=
  h.bind fun _ => bind (ite (of_ok _) (throw (.infinite _ _))) hf

theorem positive {m : Except EvalError α} {period : Int} (h : FailsForArguments m) :
    FailsForArguments (do positivePeriod e period; m) :=
  bind (ite (throw (.notPositive _ _)) (of_ok _)) fun _ => h

theorem settle (hk : e.HasKind k) (x : Float) : FailsForArguments (e.settle x) :=
  of_exists ⟨_, hk.settle_eq x⟩

theorem field {f : Field → Except EvalError α} (hk : a.HasKind j) (hj : j.isQuote = true)
    (hf : ∀ x, FailsForArguments (f x)) : FailsForArguments (a.field >>= f) := by
  obtain ⟨x, rfl, -⟩ := hk.eq_quote hj
  exact hf x

end FailsForArguments

theorem Provided.quotesFor {source : Source} {symbol : Symbol} (h : Provided env source symbol)
    (e : Expr) : FailsForArguments (env.quotesFor e) :=
  .of_exists ⟨(source, symbol), Environment.quotesFor_eq_ok.mpr ⟨h.hasSource, h.hasSymbol⟩⟩

/-- Evaluation fails only for an argument. -/
theorem failsForArguments {source : Source} {symbol : Symbol} (hk : e.HasKind k)
    (h : Provided env source symbol) (hdeclared : e.Everywhere (IsDeclared env)) :
    FailsForArguments (e.evaluate env) := by
  induction e generalizing k with
  | leaf l => exact .of_exists (evaluate_leaf h hdeclared)
  | unary op a iha =>
    obtain ⟨j, ka, -⟩ := hasKind_unary.mp hk
    have ha := iha ka hdeclared.2
    cases op with
    | not =>
      rw [evaluate]
      exact ha.bind fun x => .of_ok _
    | sqrt =>
      rw [evaluate]
      exact ha.bind fun x => .settle hk _
    | abs =>
      rw [evaluate]
      exact ha.bind fun x => .settle hk _
  | binary op a b iha ihb =>
    obtain ⟨j, l, ka, kb, hr⟩ := hasKind_binary.mp hk
    have ha := iha ka hdeclared.2.1
    have hb := ihb kb hdeclared.2.2
    cases op with
    | arithmetic op =>
      rw [evaluate]
      exact ha.bind fun x => hb.bind fun y => .settle hk _
    | comparison op =>
      rw [evaluate]
      exact ha.bind fun x => hb.bind fun y => .of_ok _
    | connective op =>
      cases op with
      | and =>
        rw [evaluate]
        exact ha.bind fun x => .ite (hb.bind fun y => .of_ok _) (.of_ok _)
      | or =>
        rw [evaluate]
        exact ha.bind fun x => .ite (.of_ok _) (hb.bind fun y => .of_ok _)
    | percent =>
      rw [evaluate]
      exact ha.bind fun x => hb.bind fun y => .settle hk _
    | lag =>
      have hj := (Kind.ofQuote?_eq_some (Binary.rule_lag.mp hr).1).1
      rw [evaluate]
      exact (h.quotesFor _).bind fun _ => hb.argument fun _ => .field ka hj fun _ => .of_ok _
    | rsi =>
      rw [evaluate]
      exact (h.quotesFor _).bind fun _ => ha.argument fun _ => hb.argument fun _ =>
        .positive (.of_ok _)
  | ternary op a b c iha ihb ihc =>
    obtain ⟨j, l, m, ka, kb, kc, hr⟩ := hasKind_ternary.mp hk
    have ha := iha ka hdeclared.2.1
    have hb := ihb kb hdeclared.2.2.1
    have hc := ihc kc hdeclared.2.2.2
    cases op with
    | choice =>
      rw [evaluate]
      exact ha.bind fun x => .ite hb hc
    | statistic s =>
      have hj := (Kind.ofQuote?_eq_some (Ternary.rule_statistic.mp hr).1).1
      rw [evaluate]
      exact (h.quotesFor _).bind fun _ => hb.argument fun _ => hc.argument fun _ =>
        .positive (.field ka hj fun _ => .settle hk _)
    | correlation partner =>
      obtain ⟨⟨number, hj⟩, -⟩ := Ternary.rule_correlation.mp hr
      have hpartner : ∀ text, FailsForArguments
          ((Symbol.parse partner).mapError (EvalError.badPartner text)) := by
        intro text err herr
        obtain ⟨error, -, rfl⟩ := mapError_eq_error.mp herr
        exact .partner text error
      rw [evaluate]
      exact (h.quotesFor _).bind fun _ => (hpartner _).bind fun _ => hb.argument fun _ =>
        hc.argument fun _ => .ite (.throw (.tooShort _ _))
          (.field ka (Kind.ofQuote?_eq_some hj).1 fun _ => .of_ok _)
  | quaternary op a b c d iha ihb ihc ihd =>
    obtain ⟨j, l, m, n, ka, kb, kc, kd, hr⟩ := hasKind_quaternary.mp hk
    have hb := ihb kb hdeclared.2.2.1
    have hc := ihc kc hdeclared.2.2.2.1
    have hd := ihd kd hdeclared.2.2.2.2
    cases op with
    | ema =>
      have hj := (Kind.ofQuote?_eq_some (Quaternary.rule_ema.mp hr).1).1
      rw [evaluate]
      exact hd.bind fun _ => .ite (.throw (.smoothing _)) <| (h.quotesFor _).bind fun _ =>
        hb.argument fun _ => hc.argument fun _ => .positive (.field ka hj fun _ => .settle hk _)

/-! ## Why evaluation fails -/

/-- A well-typed tree whose variables are declared has a value on each day of the calendar, or evaluation
fails for an argument.  It fails exactly when it comes to a quote function with an argument that cannot be
used.  With quotes on the days of the calendar only, no guard of an operation is met either. -/
theorem evaluate_fails_for_arguments {source : Source} {symbol : Symbol} (hk : e.HasKind k)
    (hdeclared : ∀ site ∈ e.sites, IsDeclared env site.2) (hsource : env.source = some source)
    (hsymbol : env.symbol = some symbol) (hday : 0 ≤ env.day ∧ env.day ≤ source.lastDay) :
    ((∃ x, e.evaluate env = .ok x) ∨ ∃ err, e.evaluate env = .error err ∧ err.OfArgument) ∧
      ((∃ err, e.evaluate env = .error err) ↔ ∃ n, Meets env e n ∧ Unusable env n) ∧
      (source.IsBounded → e.evaluateGuarded env = Guarded.lift (e.evaluate env)) := by
  have hprovided : Provided env source symbol := ⟨hsource, hsymbol, hday⟩
  have heverywhere := everywhere_iff.mpr hdeclared
  refine ⟨?_, fails_iff hk hprovided heverywhere, fun hbounded => evaluateGuarded_eq hk ?_⟩
  · cases hr : e.evaluate env with
    | ok x => exact .inl ⟨x, rfl⟩
    | error err => exact .inr ⟨err, rfl, failsForArguments hk hprovided heverywhere err hr⟩
  · intro source' hsource'
    rw [hsource] at hsource'
    cases hsource'
    exact hbounded

/-- The average close of the days of holding has no value on the first of them. -/
theorem evaluate_fails_for_period :
    averageHeld.HasKind .boolean ∧ (∀ site ∈ averageHeld.sites, IsDeclared (onDay 0.0) site.2) ∧
      oneDay.IsBounded ∧
      (∃ n, Meets (onDay 0.0) averageHeld n ∧ Unusable (onDay 0.0) n) ∧
      (∃ err, averageHeld.evaluateGuarded (onDay 0.0) = .error (.evaluation err) ∧ err.OfArgument) := by
  have hfails : averageHeld.evaluate (onDay 0.0) =
      .error (.periodNotPositive "avg(close, held, 0)" 0) := by decide +kernel
  have hdeclared : ∀ site ∈ averageHeld.sites, IsDeclared (onDay 0.0) site.2 := by
    refine everywhere_iff.mp ⟨nofun, ⟨nofun, nofun, ?_, nofun⟩, nofun⟩
    rintro _ _ ⟨⟩
    decide +kernel
  have hbounded : oneDay.IsBounded :=
    Source.isBounded_of_series (by simp [oneDay]) (by decide +kernel)
  have hsource : (onDay 0.0).source = some oneDay := rfl
  have hday : 0 ≤ (onDay 0.0).day ∧ (onDay 0.0).day ≤ oneDay.lastDay := ⟨le_rfl, le_rfl⟩
  obtain ⟨hvalue, hunusable, hguarded⟩ :=
    evaluate_fails_for_arguments (k := .boolean) (by rfl) hdeclared hsource rfl hday
  rw [hfails] at hvalue
  obtain ⟨x, hx⟩ | ⟨err, herr, hargument⟩ := hvalue
  · cases hx
  · cases herr
    refine ⟨by rfl, hdeclared, hbounded, hunusable.mp ⟨_, hfails⟩, _, ?_, hargument⟩
    rw [hguarded hbounded, hfails]
    rfl

end Expr

end TradeRules
