import TradeRules.Market.Window
import TradeRules.Number.Aggregate
import TradeRules.Rule.Operation
import TradeRules.Rule.Variables

/-!
# Evaluation

The value of an expression in an environment: the variables, the market data, the symbol that is
looked at, and the reference day.  Truth values are numbers.  Operands are evaluated from left to
right.  A connective evaluates its second operand only if the first leaves the result open, and a
choice evaluates one branch.

Evaluation fails where a quote function is given no market data, or a period, an offset, a smoothing
constant or a partner symbol that it cannot use.  A missing quote is no failure.
-/

namespace TradeRules

/-- What an expression is evaluated in. -/
structure Environment where
  /-- The variables. -/
  bindings : Variables
  /-- The market data, if there is any. -/
  source : Option Source
  /-- The symbol whose quotes are read, if one is chosen. -/
  symbol : Option Symbol
  /-- The reference day. -/
  day : Int

/-- Why an expression has no value. -/
inductive EvalError where
  | undefined (name : String)
  /-- A quote function is evaluated without market data or without a symbol. -/
  | needsQuotes (text : String)
  /-- A property of the date is evaluated without market data. -/
  | needsDates (part : DatePart)
  /-- The reference day has no date. -/
  | noDate (e : MissingQuote)
  /-- A period or offset is infinite or NaN. -/
  | infiniteArgument (text : String) (value : Float)
  | periodNotPositive (text : String) (period : Int)
  /-- A correlation needs a period of at least two days. -/
  | periodTooShort (text : String) (period : Int)
  | smoothingRange (value : Float)
  | badPartner (text : String) (e : Symbol.Error)
  /-- A node of the expression has no kind. -/
  | unkinded (e : BuildError)
deriving DecidableEq

namespace Smoothing

/-- The least smoothing constant. -/
def least : Float :=
  0.01

/-- The greatest smoothing constant. -/
def greatest : Float :=
  1.0

end Smoothing

/-- The message of an evaluation error. -/
def EvalError.message : EvalError → String
  | .undefined name => (VariableError.undefined name).message
  | .needsQuotes text => "'" ++ text ++ "' needs a quote source and a symbol"
  | .needsDates part => part.word ++ "() needs quote data to resolve dates"
  | .noDate e => e.message
  | .infiniteArgument text value =>
    "Argument must be finite in '" ++ text ++ "', got " ++ Double.text value
  | .periodNotPositive text period =>
    "Period must be positive in '" ++ text ++ "', got " ++ toString period
  | .periodTooShort text period =>
    "Period must be at least 2 in '" ++ text ++ "', got " ++ toString period
  | .smoothingRange value =>
    "Smoothing constant must lie in [" ++ Double.text Smoothing.least ++ ", "
      ++ Double.text Smoothing.greatest ++ "], got " ++ Double.text value
  | .badPartner text e => "Invalid symbol in '" ++ text ++ "': " ++ e.message
  | .unkinded e => e.message

/-- A property of a date. -/
def DatePart.of : DatePart → Date → Nat
  | .day, d => d.day
  | .dayOfWeek, d => d.weekday
  | .dayOfYear, d => d.yearday
  | .month, d => d.month

/-- A statistic of samples. -/
def Statistic.of : Statistic → List Float → Float
  | .average => Samples.average
  | .minimum => Samples.minimum
  | .maximum => Samples.maximum
  | .total => Samples.total
  | .deviation => Samples.standardDeviation
  | .lowerBand => Samples.lowerBand
  | .upperBand => Samples.upperBand

namespace Environment

/-- The market data and the symbol that a quote function reads. -/
def quotesFor (env : Environment) (e : Expr) : Except EvalError (Source × Symbol) :=
  match env.source, env.symbol with
  | some source, some symbol => .ok (source, symbol)
  | _, _ => .error (.needsQuotes e.text)

/-- The value of a property of the reference day's date. -/
def datePart (env : Environment) (part : DatePart) : Except EvalError Float :=
  match env.source with
  | none => .error (.needsDates part)
  | some source => do
    let d ← (source.date env.day).mapError .noDate
    return Double.ofNat (part.of d)

/-- The value of a leaf. -/
def leaf (env : Environment) : Leaf → Except EvalError Float
  | .number l => .ok l.toDouble
  | .truth b => .ok (Truth.toNumber b)
  | .variable name _ =>
    match env.bindings.get? name with
    | some v => .ok v.value
    | none => .error (.undefined name)
  | .quote field => do
    let (source, symbol) ← env.quotesFor (.quote field)
    return source.single symbol field env.day 0
  | .date part => env.datePart part

end Environment

/-- The whole number that a period or an offset stands for. -/
def wholeArgument (e : Expr) (x : Float) : Except EvalError Int :=
  if x.isFinite then .ok (Double.truncate x) else .error (.infiniteArgument e.text x)

/-- A period, which has to be positive. -/
def positivePeriod (e : Expr) (period : Int) : Except EvalError Unit :=
  if period ≤ 0 then .error (.periodNotPositive e.text period) else .ok ()

namespace Expr

/-- The field that the first operand of a quote function names. -/
def field : Expr → Except EvalError Field
  | .quote f => .ok f
  | e => (e.declaredKind.mapError EvalError.unkinded).bind fun k => .error (.unkinded (.notQuote k))

/-- A result of the declared kind of an expression. -/
def settle (e : Expr) (x : Float) : Except EvalError Float := do
  let k ← e.declaredKind.mapError EvalError.unkinded
  return k.settle x

/-- The value of an expression. -/
def evaluate (env : Environment) : Expr → Except EvalError Float
  | .leaf l => env.leaf l
  | .unary .not a => do
    let x ← a.evaluate env
    return Truth.toNumber (!Truth.holds x)
  | .unary .sqrt a => do
    let x ← a.evaluate env
    settle (.unary .sqrt a) (positiveRoot x)
  | .unary .abs a => do
    let x ← a.evaluate env
    settle (.unary .abs a) x.abs
  | .binary (.arithmetic op) a b => do
    let x ← a.evaluate env
    let y ← b.evaluate env
    settle (.arithmetic op a b) (op.apply x y)
  | .binary (.comparison op) a b => do
    let x ← a.evaluate env
    let y ← b.evaluate env
    return Truth.toNumber (op.holds x y)
  | .binary (.connective .and) a b => do
    let x ← a.evaluate env
    if Truth.holds x then
      let y ← b.evaluate env
      return Truth.toNumber (Truth.holds y)
    else return Truth.toNumber false
  | .binary (.connective .or) a b => do
    let x ← a.evaluate env
    if Truth.holds x then return Truth.toNumber true
    else
      let y ← b.evaluate env
      return Truth.toNumber (Truth.holds y)
  | .binary .percent a b => do
    let x ← a.evaluate env
    let y ← b.evaluate env
    settle (.binary .percent a b) (percentOf x y)
  | .binary .lag a b => do
    let self := .binary .lag a b
    let (source, symbol) ← env.quotesFor self
    let offset ← wholeArgument self (← b.evaluate env)
    let f ← a.field
    return source.single symbol f env.day offset
  | .binary .rsi a b => do
    let self := .binary .rsi a b
    let (source, symbol) ← env.quotesFor self
    let period ← wholeArgument self (← a.evaluate env)
    let offset ← wholeArgument self (← b.evaluate env)
    positivePeriod self period
    return Samples.relativeStrength (source.window symbol .closing env.day (period + 1) offset)
  | .ternary .choice c a b => do
    let x ← c.evaluate env
    if Truth.holds x then a.evaluate env else b.evaluate env
  | .ternary (.statistic s) a b c => do
    let self := .ternary (.statistic s) a b c
    let (source, symbol) ← env.quotesFor self
    let period ← wholeArgument self (← b.evaluate env)
    let offset ← wholeArgument self (← c.evaluate env)
    positivePeriod self period
    let f ← a.field
    settle self (s.of (source.window symbol f env.day period offset))
  | .ternary (.correlation partner) a b c => do
    let self := .ternary (.correlation partner) a b c
    let (source, symbol) ← env.quotesFor self
    let other ← (Symbol.parse partner).mapError (.badPartner self.text)
    let period ← wholeArgument self (← b.evaluate env)
    let offset ← wholeArgument self (← c.evaluate env)
    if period ≤ 1 then throw (.periodTooShort self.text period)
    let f ← a.field
    let pairs := source.pairedWindow symbol other f env.day period offset
    return Samples.correlation (pairs.map Prod.fst) (pairs.map Prod.snd)
  | .quaternary .ema a b c d => do
    let self := .quaternary .ema a b c d
    let smoothing ← d.evaluate env
    if !(Smoothing.least ≤ smoothing && smoothing ≤ Smoothing.greatest) then
      throw (.smoothingRange smoothing)
    let (source, symbol) ← env.quotesFor self
    let period ← wholeArgument self (← b.evaluate env)
    let offset ← wholeArgument self (← c.evaluate env)
    positivePeriod self period
    let f ← a.field
    let samples := source.window symbol f env.day period offset
    settle self (Samples.exponentialAverage smoothing samples)

/-- Whether a correlation occurs in an expression. -/
def hasCorrelation : Expr → Bool
  | .leaf _ => false
  | .unary _ a => a.hasCorrelation
  | .binary _ a b => a.hasCorrelation || b.hasCorrelation
  | .ternary (.correlation _) _ _ _ => true
  | .ternary _ a b c => a.hasCorrelation || b.hasCorrelation || c.hasCorrelation
  | .quaternary _ a b c d =>
    a.hasCorrelation || b.hasCorrelation || c.hasCorrelation || d.hasCorrelation

end Expr

end TradeRules
