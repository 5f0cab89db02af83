import TradeRules.Proofs.Market.Windows
import TradeRules.Proofs.Number.Mean
import TradeRules.Proofs.Rule.Evaluate

/-!
# Evaluation with guarded operations

The operations of `Expr.evaluate` are total.  Where an operation has no result, such as a division by
zero, the root of a negative number or the integer part of an infinity, it answers something, and so do
the lookup of a quote and the first of no samples.  `Expr.evaluateGuarded` is the same evaluation with
operations that refuse (`Failure`).  It looks for quotes on all days of a window, also far outside the
calendar, and passes over those that are missing.

No guard is met on a well-typed tree: guarded evaluation comes to the same value, or fails with the same
evaluation error (`Expr.evaluateGuarded_eq`).  Most operations are tested before.  That the average fall of
a relative strength is no zero is a fact of rounding (`Samples.mean_pos`).
-/

namespace TradeRules

/-- Why guarded evaluation stops. -/
inductive Failure where
  | evaluation (e : EvalError)
  | divisionByZero
  | negativeRoot
  /-- An infinity or NaN has no integer part. -/
  | noIntegerPart
  /-- An integer lies beyond the doubles. -/
  | tooLarge
  | noSamples
  | missing (e : MissingQuote)
  /-- The first operand of a quote function names no field. -/
  | noField
  /-- An expression declares no kind. -/
  | noKind

/-! ## Guarded operations -/

namespace Guarded

/-- An evaluation error as a failure. -/
def lift {α : Type} (m : Except EvalError α) : Except Failure α :=
  m.mapError .evaluation

def divide (x y : Float) : Except Failure Float :=
  if y == 0.0 then .error .divisionByZero else .ok (x / y)

def squareRoot (x : Float) : Except Failure Float :=
  if x < 0.0 then .error .negativeRoot else .ok x.sqrt

def integerPart (x : Float) : Except Failure Int :=
  if x.isFinite then .ok (Double.truncate x) else .error .noIntegerPart

def toDouble (n : Int) : Except Failure Float :=
  if (Double.ofInt n).isFinite then .ok (Double.ofInt n) else .error .tooLarge

/-- An arithmetic operation. -/
def arithmetic : Arithmetic → Float → Float → Except Failure Float
  | .divide, x, y => if y == 0.0 then .ok 0.0 else divide x y
  | op, x, y => .ok (op.apply x y)

/-- The square root, zero unless the number is positive. -/
def positiveRoot (x : Float) : Except Failure Float :=
  if 0.0 < x then squareRoot x else .ok 0.0

/-- A result of the declared kind of an expression. -/
def settle (e : Expr) (x : Float) : Except Failure Float := do
  let k ← e.declaredKind.mapError fun _ => Failure.noKind
  if k = .integer ∧ x.isFinite = true then toDouble (← integerPart x) else return x

/-- The whole number that a period or an offset stands for. -/
def wholeArgument (e : Expr) (x : Float) : Except Failure Int :=
  if x.isFinite then integerPart x else .error (.evaluation (.infiniteArgument e.text x))

/-- The field that an expression names. -/
def field : Expr → Except Failure Field
  | .quote f => .ok f
  | _ => .error .noField

/-! ## Guarded lookups -/

/-- The quote of a symbol on a day. -/
def lookup (source : Source) (symbol : Symbol) (field : Field) (day : Int) : Except Failure Float :=
  (source.quote symbol field day).mapError .missing

/-- A lookup without a failure where the quote is missing. -/
def attempt {α : Type} (m : Except Failure α) : Except Failure (Option α) :=
  match m with
  | .ok x => .ok (some x)
  | .error (.missing _) => .ok none
  | .error e => .error e

/-- The days of a window, also those outside the calendar. -/
def windowDays (day period offset : Int) : List Int :=
  (List.range period.toNat).map fun i : Nat => day + offset - period + 1 + (i : Int)

/-- What is found on the days of a window, without those on which it is missing. -/
def collect {α : Type} (day period offset : Int) (look : Int → Except Failure α) :
    Except Failure (List α) := do
  let found ← (windowDays day period offset).mapM fun d => attempt (look d)
  return found.filterMap id

def single (source : Source) (symbol : Symbol) (field : Field) (day offset : Int) :
    Except Failure Float := do
  return (← attempt (lookup source symbol field (day + offset))).getD 0.0

def window (source : Source) (symbol : Symbol) (field : Field) (day period offset : Int) :
    Except Failure (List Float) :=
  collect day period offset (lookup source symbol field)

def pairedWindow (source : Source) (symbol partner : Symbol) (field : Field)
    (day period offset : Int) : Except Failure (List (Float × Float)) :=
  collect day period offset fun d => do
    let x ← lookup source symbol field d
    let y ← lookup source partner field d
    return (x, y)

/-! ## Guarded statistics -/

/-- Something computed from samples of which there has to be one. -/
def ofSome (f : List Float → Float) (xs : List Float) : Except Failure Float :=
  if xs.isEmpty then .error .noSamples else .ok (f xs)

/-- A statistic of samples. -/
def statistic : Statistic → List Float → Except Failure Float
  | .minimum, xs => if xs.isEmpty then .ok 0.0 else ofSome Samples.minimum xs
  | .maximum, xs => if xs.isEmpty then .ok 0.0 else ofSome Samples.maximum xs
  | s, xs => .ok (s.of xs)

/-- The exponential average. -/
def exponentialAverage (smoothing : Float) (xs : List Float) : Except Failure Float :=
  if xs.isEmpty then .ok 0.0 else ofSome (Samples.exponentialAverage smoothing) xs

/-- The relative strength index. -/
def relativeStrength (xs : List Float) : Except Failure Float := do
  let up := Samples.gains xs
  let down := Samples.losses xs
  if down.isEmpty then return if up.isEmpty then Samples.neutralStrength else 100.0
  let ratio ← divide (Samples.average up) (Samples.mean down)
  let share ← divide 100.0 (1.0 + ratio)
  return 100.0 - share

end Guarded

/-! ## Guarded evaluation -/

open Guarded in
/-- The value of a leaf. -/
def Environment.leafGuarded (env : Environment) : Leaf → Except Failure Float
  | .number (.whole n _) => toDouble n
  | .quote field => do
    let (source, symbol) ← lift (env.quotesFor (.quote field))
    single source symbol field env.day 0
  | l => lift (env.leaf l)

namespace Expr

open Guarded in
/-- The value of an expression. -/
def evaluateGuarded (env : Environment) : Expr → Except Failure Float
  | .leaf l => env.leafGuarded l
  | .unary .not a => do
    let x ← a.evaluateGuarded env
    return Truth.toNumber (!Truth.holds x)
  | .unary .sqrt a => do
    let x ← a.evaluateGuarded env
    Guarded.settle (.unary .sqrt a) (← Guarded.positiveRoot x)
  | .unary .abs a => do
    let x ← a.evaluateGuarded env
    Guarded.settle (.unary .abs a) x.abs
  | .binary (.arithmetic op) a b => do
    let x ← a.evaluateGuarded env
    let y ← b.evaluateGuarded env
    Guarded.settle (.arithmetic op a b) (← Guarded.arithmetic op x y)
  | .binary (.comparison op) a b => do
    let x ← a.evaluateGuarded env
    let y ← b.evaluateGuarded env
    return Truth.toNumber (op.holds x y)
  | .binary (.connective .and) a b => do
    let x ← a.evaluateGuarded env
    if Truth.holds x then
      let y ← b.evaluateGuarded env
      return Truth.toNumber (Truth.holds y)
    else return Truth.toNumber false
  | .binary (.connective .or) a b => do
    let x ← a.evaluateGuarded env
    if Truth.holds x then return Truth.toNumber true
    else
      let y ← b.evaluateGuarded env
      return Truth.toNumber (Truth.holds y)
  | .binary .percent a b => do
    let x ← a.evaluateGuarded env
    let y ← b.evaluateGuarded env
    Guarded.settle (.binary .percent a b) (← divide (x * y) 100.0)
  | .binary .lag a b => do
    let self := .binary .lag a b
    let (source, symbol) ← lift (env.quotesFor self)
    let offset ← Guarded.wholeArgument self (← b.evaluateGuarded env)
    let f ← Guarded.field a
    single source symbol f env.day offset
  | .binary .rsi a b => do
    let self := .binary .rsi a b
    let (source, symbol) ← lift (env.quotesFor self)
    let period ← Guarded.wholeArgument self (← a.evaluateGuarded env)
    let offset ← Guarded.wholeArgument self (← b.evaluateGuarded env)
    lift (positivePeriod self period)
    Guarded.relativeStrength (← window source symbol .closing env.day (period + 1) offset)
  | .ternary .choice c a b => do
    let x ← c.evaluateGuarded env
    if Truth.holds x then a.evaluateGuarded env else b.evaluateGuarded env
  | .ternary (.statistic s) a b c => do
    let self := .ternary (.statistic s) a b c
    let (source, symbol) ← lift (env.quotesFor self)
    let period ← Guarded.wholeArgument self (← b.evaluateGuarded env)
    let offset ← Guarded.wholeArgument self (← c.evaluateGuarded env)
    lift (positivePeriod self period)
    let f ← Guarded.field a
    Guarded.settle self (← Guarded.statistic s (← window source symbol f env.day period offset))
  | .ternary (.correlation partner) a b c => do
    let self := .ternary (.correlation partner) a b c
    let (source, symbol) ← lift (env.quotesFor self)
    let other ← lift ((Symbol.parse partner).mapError (.badPartner self.text))
    let period ← Guarded.wholeArgument self (← b.evaluateGuarded env)
    let offset ← Guarded.wholeArgument self (← c.evaluateGuarded env)
    if period ≤ 1 then throw (.evaluation (.periodTooShort self.text period))
    let f ← Guarded.field a
    let pairs ← pairedWindow source symbol other f env.day period offset
    return Samples.correlation (pairs.map Prod.fst) (pairs.map Prod.snd)
  | .quaternary .ema a b c d => do
    let self := .quaternary .ema a b c d
    let smoothing ← d.evaluateGuarded env
    if !(Smoothing.least ≤ smoothing && smoothing ≤ Smoothing.greatest) then
      throw (.evaluation (.smoothingRange smoothing))
    let (source, symbol) ← lift (env.quotesFor self)
    let period ← Guarded.wholeArgument self (← b.evaluateGuarded env)
    let offset ← Guarded.wholeArgument self (← c.evaluateGuarded env)
    lift (positivePeriod self period)
    let f ← Guarded.field a
    let samples ← window source symbol f env.day period offset
    Guarded.settle self (← Guarded.exponentialAverage smoothing samples)

end Expr

/-! ## Operations that are not refused -/

namespace Guarded

open Double

variable {α β : Type} {x y : Float} {xs : List Float}

/-- Guarded steps after each other come to what the steps come to. -/
theorem bind_lift {m : Except Failure α} {m' : Except EvalError α} {g : α → Except Failure β}
    {g' : α → Except EvalError β} (h : m = lift m') (hnext : ∀ a, m' = .ok a → g a = lift (g' a)) :
    (m >>= g) = lift (m' >>= g') := by
  rw [h]
  cases m' with
  | error e => rfl
  | ok a => exact hnext a rfl

theorem ite_lift {p : Prop} [Decidable p] {m n : Except Failure α} {m' n' : Except EvalError α}
    (h : p → m = lift m') (h' : ¬p → n = lift n') :
    (if p then m else n) = lift (if p then m' else n') := by
  split_ifs with hp
  · exact h hp
  · exact h' hp

theorem positiveRoot_eq (x : Float) : positiveRoot x = .ok (TradeRules.positiveRoot x) := by
  unfold positiveRoot TradeRules.positiveRoot squareRoot
  split_ifs with hpos hneg
  · exact absurd hneg (not_lt_of_le (le_of_lt hpos))
  · rfl
  · rfl

theorem arithmetic_eq (op : Arithmetic) (x y : Float) : arithmetic op x y = .ok (op.apply x y) := by
  cases op with
  | divide =>
    show (if y == 0.0 then .ok 0.0 else divide x y) = .ok (if y == 0.0 then 0.0 else x / y)
    unfold divide
    split_ifs <;> rfl
  | add => rfl
  | subtract => rfl
  | multiply => rfl

/-- Division by what is not at most zero. -/
theorem divide_eq (h : ¬y ≤ 0.0) : divide x y = .ok (x / y) :=
  if_neg fun hbeq => h (le_of_beq hbeq)

theorem divide_hundred (x : Float) : divide x 100.0 = .ok (x / 100.0) :=
  if_neg (by decide +kernel)

/-- A result is settled to the kind of a well-typed tree. -/
theorem settle_eq {e : Expr} {k : Kind} (h : e.HasKind k) (x : Float) :
    settle e x = .ok (k.settle x) := by
  unfold settle Kind.settle
  rw [h.declaredKind]
  show (if k = .integer ∧ x.isFinite = true then _ else _) = _
  split_ifs with hwhole
  · rw [integerPart, if_pos hwhole.2, bind_of_ok rfl, toDouble, if_pos (ofInt_truncate hwhole.2).1]
  · rfl

theorem wholeArgument_eq (e : Expr) (x : Float) :
    wholeArgument e x = lift (TradeRules.wholeArgument e x) := by
  unfold wholeArgument TradeRules.wholeArgument integerPart
  split_ifs <;> rfl

theorem settle_lift {e : Expr} {k : Kind} (h : e.HasKind k) (x : Float) :
    settle e x = lift (e.settle x) := by
  rw [settle_eq h, h.settle_eq]
  rfl

theorem field_eq {a : Expr} {j : Kind} (h : a.HasKind j) (hj : j.isQuote = true) :
    field a = lift a.field := by
  obtain ⟨f, rfl, -⟩ := h.eq_quote hj
  rfl

/-! ## Lookups that are not refused -/

theorem attempt_lookup (source : Source) (symbol : Symbol) (f : Field) (day : Int) :
    attempt (lookup source symbol f day) = .ok (source.quote? symbol f day) := by
  unfold lookup Source.quote
  cases source.quote? symbol f day <;> rfl

theorem attempt_pair (source : Source) (symbol partner : Symbol) (f : Field) (day : Int) :
    attempt (do
      let x ← lookup source symbol f day
      let y ← lookup source partner f day
      return (x, y)) =
    .ok (do
      let x ← source.quote? symbol f day
      let y ← source.quote? partner f day
      return (x, y)) := by
  unfold lookup Source.quote
  cases source.quote? symbol f day with
  | none => rfl
  | some x => cases source.quote? partner f day <;> rfl

end Guarded

/-! ## Windows of bounded sources -/

/-- Whether a source has quotes only on the days of its calendar, and no more days than there are doubles
for. -/
structure Source.IsBounded (s : Source) : Prop where
  quotes : ∀ symbol field day, s.lastDay < day → s.quote? symbol field day = none
  size : (Double.ofNat s.calendar.size).isFinite = true

namespace Source

variable {s : Source} {symbol partner : Symbol} {f : Field} {day period offset : Int}

/-- A source of series no longer than its calendar is bounded. -/
theorem isBounded_of_series (h : ∀ entry ∈ s.series, entry.2.size ≤ s.calendar.size)
    (hsize : (Double.ofNat s.calendar.size).isFinite = true) : s.IsBounded where
  quotes _ _ _ hday := quote?_of_size_le h hday
  size := hsize

namespace IsBounded

theorem quote?_eq_none (h : s.IsBounded) {d : Int} (hd : d < 0 ∨ s.lastDay < d) :
    s.quote? symbol f d = none := by
  rcases hd with hneg | hlast
  · exact quote?_of_neg hneg
  · exact h.quotes symbol f d hlast

/-- A window has no more samples than there are doubles for. -/
theorem length_window (h : s.IsBounded) :
    (Double.ofNat (s.window symbol f day period offset).length).isFinite = true :=
  Double.isFinite_ofNat_mono
    ((List.length_filterMap_le _ _).trans (length_windowDays_le s day period offset)) h.size

end IsBounded

end Source

namespace Guarded

variable {source : Source} {symbol partner : Symbol} {f : Field} {day period offset : Int}

theorem collect_eq {α : Type} {look : Int → Except Failure α} {found : Int → Option α}
    (h : ∀ d, attempt (look d) = .ok (found d)) :
    collect day period offset look = .ok ((windowDays day period offset).filterMap found) := by
  have hall : (windowDays day period offset).mapM (fun d => attempt (look d)) =
      .ok ((windowDays day period offset).map found) := by
    simp only [h]
    exact List.mapM_pure
  rw [collect, hall, bind_of_ok rfl, List.filterMap_map]
  rfl

/-- The days of a window are those of its span. -/
theorem windowDays_eq (day period offset : Int) :
    windowDays day period offset = Source.span (day + offset) period.toNat := by
  refine List.map_congr_left fun i hi => ?_
  rw [List.mem_range] at hi
  omega

theorem single_eq : single source symbol f day offset = .ok (source.single symbol f day offset) := by
  rw [single, attempt_lookup]
  rfl

theorem window_eq (h : source.IsBounded) :
    window source symbol f day period offset =
      .ok (source.window symbol f day period offset) := by
  rw [window, collect_eq (attempt_lookup source symbol f), windowDays_eq,
    ← Source.filterMap_span fun d hd => h.quote?_eq_none hd]
  rfl

theorem pairedWindow_eq (h : source.IsBounded) :
    pairedWindow source symbol partner f day period offset =
      .ok (source.pairedWindow symbol partner f day period offset) := by
  rw [pairedWindow, collect_eq (attempt_pair source symbol partner f), windowDays_eq,
    ← Source.filterMap_span fun d hd => by rw [h.quote?_eq_none hd]; rfl]
  rfl

/-! ## Statistics that are not refused -/

theorem statistic_eq (s : Statistic) (xs : List Float) : statistic s xs = .ok (s.of xs) := by
  cases s with
  | minimum => cases xs <;> rfl
  | maximum => cases xs <;> rfl
  | average => rfl
  | total => rfl
  | deviation => rfl
  | lowerBand => rfl
  | upperBand => rfl

theorem exponentialAverage_eq (smoothing : Float) (xs : List Float) :
    exponentialAverage smoothing xs = .ok (Samples.exponentialAverage smoothing xs) := by
  cases xs <;> rfl

end Guarded

namespace Samples

variable {xs : List Float}

theorem length_changes_le : ∀ xs : List Float, (changes xs).length ≤ xs.length
  | [] => le_rfl
  | [_] => Nat.zero_le _
  | x :: y :: rest => by
    have h := length_changes_le (y :: rest)
    simp only [changes, List.length_cons] at h ⊢
    omega

/-- The average rise is not negative. -/
theorem average_gains_nonneg (h : MeansPositive xs.length) : 0.0 ≤ average (gains xs) := by
  unfold average
  split_ifs with hnone
  · decide +kernel
  · have hne : gains xs ≠ [] := fun hnil => hnone (List.isEmpty_iff.mpr hnil)
    have hlength : (gains xs).length ≤ xs.length :=
      (List.length_filter_le _ _).trans (length_changes_le xs)
    have hpos : 0.0 < mean (gains xs) :=
      h _ hne (fun y hy => of_decide_eq_true (List.mem_filter.mp hy).2) hlength
    exact Double.le_of_lt hpos

/-- The average fall is positive. -/
theorem mean_losses_pos (h : MeansPositive xs.length) (hne : losses xs ≠ []) :
    0.0 < mean (losses xs) := by
  have hlength : (losses xs).length ≤ xs.length := by
    rw [losses, List.length_map]
    exact (List.length_filter_le _ _).trans (length_changes_le xs)
  refine h _ hne (fun y hy => ?_) hlength
  obtain ⟨c, hc, rfl⟩ := List.mem_map.mp hy
  exact Double.zero_lt_neg (of_decide_eq_true (List.mem_filter.mp hc).2)

end Samples

namespace Guarded

/-- The relative strength divides by no zero. -/
theorem relativeStrength_eq {xs : List Float} (h : Samples.MeansPositive xs.length) :
    relativeStrength xs = .ok (Samples.relativeStrength xs) := by
  unfold relativeStrength Samples.relativeStrength
  dsimp only
  split_ifs with hdown hup
  · rfl
  · rfl
  · have hne : Samples.losses xs ≠ [] := fun hnil => hdown (List.isEmpty_iff.mpr hnil)
    have hfall := Samples.mean_losses_pos h hne
    have hratio : ¬Samples.average (Samples.gains xs) / Samples.mean (Samples.losses xs) < 0.0 :=
      Double.not_div_lt_zero (Double.not_lt_of_le (Samples.average_gains_nonneg h)) hfall
    have hsum : ¬1.0 + Samples.average (Samples.gains xs) / Samples.mean (Samples.losses xs) ≤ 0.0 := by
      rw [Double.add_swap]
      exact Double.not_add_le_zero hratio (by decide +kernel)
    rw [divide_eq fun hle => Double.not_le_of_lt hfall hle, bind_of_ok rfl, divide_eq hsum]
    rfl

end Guarded

/-! ## Guarded evaluation is evaluation -/

namespace Expr

open Guarded

variable {env : Environment} {a b c d e : Expr} {k : Kind}

theorem leafGuarded_eq (l : Leaf) : env.leafGuarded l = lift (env.leaf l) := by
  match l with
  | .number (.whole n hn) => exact if_pos hn
  | .quote f => exact bind_lift rfl fun _ _ => single_eq
  | .number (.real x hx) => rfl
  | .truth t => rfl
  | .variable name kind => rfl
  | .date part => rfl

/-- Period and offset of a function are evaluated, and have to be whole numbers. -/
theorem argument_lift {m : Except Failure Float} {m' : Except EvalError Float} {α : Type}
    {g : Int → Except Failure α} {g' : Int → Except EvalError α} (h : m = lift m')
    (hnext : ∀ n, g n = lift (g' n)) :
    (do let n ← Guarded.wholeArgument e (← m); g n) =
      lift (do let n ← TradeRules.wholeArgument e (← m'); g' n) :=
  bind_lift h fun x _ => bind_lift (wholeArgument_eq e x) fun n _ => hnext n

/-- No guard is met in the evaluation of a well-typed tree. -/
theorem evaluateGuarded_eq (hk : e.HasKind k)
    (hsource : ∀ source, env.source = some source → source.IsBounded) :
    e.evaluateGuarded env = lift (e.evaluate env) := by
  -- The source that a quote function reads is bounded.
  have hfound : ∀ {e : Expr} {found : Source × Symbol}, env.quotesFor e = .ok found →
      found.1.IsBounded := fun h => hsource _ (Environment.quotesFor_eq_ok.mp h).1
  induction e generalizing k with
  | leaf l => exact leafGuarded_eq l
  | unary op a iha =>
    obtain ⟨j, ka, -⟩ := hasKind_unary.mp hk
    cases op with
    | not =>
      rw [evaluateGuarded, evaluate]
      exact bind_lift (iha ka) fun x _ => rfl
    | sqrt =>
      rw [evaluateGuarded, evaluate]
      refine bind_lift (iha ka) fun x _ => ?_
      rw [positiveRoot_eq, bind_of_ok rfl]
      exact settle_lift hk _
    | abs =>
      rw [evaluateGuarded, evaluate]
      exact bind_lift (iha ka) fun x _ => settle_lift hk _
  | binary op a b iha ihb =>
    obtain ⟨j, l, ka, kb, hr⟩ := hasKind_binary.mp hk
    cases op with
    | arithmetic op =>
      rw [evaluateGuarded, evaluate]
      refine bind_lift (iha ka) fun x _ => bind_lift (ihb kb) fun y _ => ?_
      rw [arithmetic_eq, bind_of_ok rfl]
      exact settle_lift hk _
    | comparison op =>
      rw [evaluateGuarded, evaluate]
      exact bind_lift (iha ka) fun x _ => bind_lift (ihb kb) fun y _ => rfl
    | connective op =>
      cases op with
      | and =>
        rw [evaluateGuarded, evaluate]
        exact bind_lift (iha ka) fun x _ =>
          ite_lift (fun _ => bind_lift (ihb kb) fun y _ => rfl) fun _ => rfl
      | or =>
        rw [evaluateGuarded, evaluate]
        exact bind_lift (iha ka) fun x _ =>
          ite_lift (fun _ => rfl) fun _ => bind_lift (ihb kb) fun y _ => rfl
    | percent =>
      rw [evaluateGuarded, evaluate]
      refine bind_lift (iha ka) fun x _ => bind_lift (ihb kb) fun y _ => ?_
      rw [divide_hundred, bind_of_ok rfl]
      exact settle_lift hk _
    | lag =>
      have hj := (Kind.ofQuote?_eq_some (Binary.rule_lag.mp hr).1).1
      rw [evaluateGuarded, evaluate]
      exact bind_lift rfl fun found _ => argument_lift (ihb kb) fun offset =>
        bind_lift (field_eq ka hj) fun f _ => single_eq
    | rsi =>
      rw [evaluateGuarded, evaluate]
      refine bind_lift rfl fun found hq => argument_lift (iha ka) fun period =>
        argument_lift (ihb kb) fun offset => bind_lift rfl fun _ _ => ?_
      rw [window_eq (hfound hq), bind_of_ok rfl,
        relativeStrength_eq (Samples.meansPositive_of_isFinite (hfound hq).length_window)]
      rfl
  | ternary op a b c iha ihb ihc =>
    obtain ⟨j, l, m, ka, kb, kc, hr⟩ := hasKind_ternary.mp hk
    cases op with
    | choice =>
      rw [evaluateGuarded, evaluate]
      exact bind_lift (iha ka) fun x _ => ite_lift (fun _ => ihb kb) fun _ => ihc kc
    | statistic s =>
      have hj := (Kind.ofQuote?_eq_some (Ternary.rule_statistic.mp hr).1).1
      rw [evaluateGuarded, evaluate]
      refine bind_lift rfl fun found hq => argument_lift (ihb kb) fun period =>
        argument_lift (ihc kc) fun offset => bind_lift rfl fun _ _ =>
          bind_lift (field_eq ka hj) fun f _ => ?_
      rw [window_eq (hfound hq), bind_of_ok rfl, statistic_eq, bind_of_ok rfl]
      exact settle_lift hk _
    | correlation partner =>
      obtain ⟨⟨number, hj⟩, -⟩ := Ternary.rule_correlation.mp hr
      rw [evaluateGuarded, evaluate]
      refine bind_lift rfl fun found hq => bind_lift rfl fun other _ =>
        argument_lift (ihb kb) fun period => argument_lift (ihc kc) fun offset => ?_
      refine ite_lift (fun _ => rfl) fun _ =>
        bind_lift (field_eq ka (Kind.ofQuote?_eq_some hj).1) fun f _ => ?_
      rw [pairedWindow_eq (hfound hq)]
      rfl
  | quaternary op a b c d iha ihb ihc ihd =>
    obtain ⟨j, l, m, n, ka, kb, kc, kd, hr⟩ := hasKind_quaternary.mp hk
    cases op with
    | ema =>
      have hj := (Kind.ofQuote?_eq_some (Quaternary.rule_ema.mp hr).1).1
      rw [evaluateGuarded, evaluate]
      refine bind_lift (ihd kd) fun smoothing _ => ite_lift (fun _ => rfl) fun _ =>
        bind_lift rfl fun found hq => argument_lift (ihb kb) fun period =>
          argument_lift (ihc kc) fun offset => bind_lift rfl fun _ _ =>
            bind_lift (field_eq ka hj) fun f _ => ?_
      rw [window_eq (hfound hq), bind_of_ok rfl, exponentialAverage_eq, bind_of_ok rfl]
      exact settle_lift hk _

end Expr

end TradeRules
