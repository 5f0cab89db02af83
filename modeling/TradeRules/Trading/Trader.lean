import TradeRules.Rule.Evaluate
import TradeRules.Trading.Portfolio

/-!
# Paper trading

A trader follows a buy rule and a sell rule through the days of a source.  On each day it considers
every symbol that traded, in order.  A stock that is held is sold when the sell rule is true and the
buy rule is not.  A stock that is not held is bought when the buy rule is true, there is room for
another position, and there is cash for the purchase and both fees.  An order is filled at the open
of the next day, and dropped when there is none.

The rules see two variables: the number of days a stock has been held, zero when it is not, and the
number of symbols considered before it on the same day.

`Trader.follow` goes through a list of turns and stops at the first rule that cannot be evaluated,
with the portfolio as it is then.  `Trader.run` starts from the initial portfolio and answers the
value at the close of the last day.
-/

namespace TradeRules

/-- How a trader trades. -/
structure TraderSettings where
  /-- The first day rules are evaluated on. -/
  startDay : Int
  /-- The day the portfolio is valued on. -/
  endDay : Int
  /-- The cash at the start. -/
  initialCapital : Float := 10000.0
  /-- The amount spent on each purchase. -/
  stockValue : Float := 1000.0
  /-- The most positions held at once. -/
  numberStocks : Int := 5
  /-- The fee of each trade. -/
  tradeCost : Float := 10.0
  /-- The symbols traded; all of them when none are given. -/
  symbols : Option (List Symbol) := none

/-- The days of a trader do not lie in the calendar. -/
structure DayRangeError where
  /-- The first day asked for. -/
  startDay : Int
  /-- The last day asked for. -/
  endDay : Int
  /-- The first day of the calendar. -/
  firstDay : Int
  /-- The last day of the calendar. -/
  lastDay : Int
deriving DecidableEq

/-- The message of a day range error. -/
def DayRangeError.message (e : DayRangeError) : String :=
  "Trading days [" ++ toString e.startDay ++ ", " ++ toString e.endDay ++ "] must lie within ["
    ++ toString e.firstDay ++ ", " ++ toString e.lastDay ++ "]"

/-- A buy rule and a sell rule. -/
structure Rules where
  /-- Buy a stock that is not held when true. -/
  buy : Expr
  /-- Sell a stock that is held when true. -/
  sell : Expr
deriving DecidableEq

/-- A trader on a source. -/
structure Trader where
  /-- The market data. -/
  source : Source
  /-- How it trades. -/
  settings : TraderSettings

/-- One symbol considered on one day. -/
structure Turn where
  /-- The day. -/
  day : Int
  /-- The number of symbols considered before it on the day. -/
  order : Nat
  /-- The symbol. -/
  symbol : Symbol
deriving DecidableEq

/-- Why trading stops. -/
inductive TradeError where
  | evaluation (e : EvalError)
  | order (e : OrderError)
deriving DecidableEq

namespace Trader

/-- A trader whose days lie in the calendar of the source. -/
def make (source : Source) (settings : TraderSettings) : Except DayRangeError Trader :=
  if source.firstDay ≤ settings.startDay ∧ settings.startDay < settings.endDay
      ∧ settings.endDay ≤ source.lastDay then
    .ok { source, settings }
  else
    .error
      { startDay := settings.startDay, endDay := settings.endDay
        firstDay := source.firstDay, lastDay := source.lastDay }

/-- The portfolio before any trade. -/
def initial (t : Trader) : Portfolio :=
  { cash := t.settings.initialCapital }

/-- The symbols considered on a day, in order. -/
def symbolsOn (t : Trader) (day : Int) : List Symbol :=
  match t.settings.symbols with
  | none => t.source.symbolsOn day
  | some chosen => (t.source.symbolsOn day).filter fun symbol => chosen.contains symbol

/-- The turns of a day. -/
def turnsOn (t : Trader) (day : Int) : List Turn :=
  (t.symbolsOn day).mapIdx fun order symbol => { day, order, symbol }

/-- The days on which rules are evaluated. -/
def days (t : Trader) : List Int :=
  (List.range (t.settings.endDay - t.settings.startDay).toNat).map fun i : Nat =>
    t.settings.startDay + (i : Int)

/-- All turns, in order. -/
def turns (t : Trader) : List Turn :=
  t.days.flatMap t.turnsOn

/-- Whether a rule is true at a turn for a stock held that many days. -/
def signal (t : Trader) (rule : Expr) (turn : Turn) (held : Int) : Except TradeError Bool := do
  let x ← (rule.evaluate
    { bindings := Variables.ofRule (Double.ofInt held) (Double.ofNat turn.order)
      source := some t.source
      symbol := some turn.symbol
      day := turn.day }).mapError .evaluation
  return Truth.holds x

/-- A purchase at the open of a day. -/
def buy (t : Trader) (p : Portfolio) (symbol : Symbol) (day : Int) :
    Except OrderError (Option Position × Portfolio) :=
  p.buy t.source t.settings.stockValue t.settings.tradeCost symbol day

/-- A sale at the open of a day. -/
def sell (t : Trader) (p : Portfolio) (symbol : Symbol) (day : Int) :
    Except OrderError (Option Trade × Portfolio) :=
  p.sell t.source t.settings.tradeCost symbol day

/-- The portfolio after an order.  An order that finds no opening price is dropped. -/
def fill {α : Type} (p : Portfolio) (order : Except OrderError (α × Portfolio)) :
    Except TradeError Portfolio :=
  match order with
  | .ok (_, p') => .ok p'
  | .error (.missing _) => .ok p
  | .error e => .error (.order e)

/-- Whether there is room and cash for another position. -/
def hasRoom (t : Trader) (p : Portfolio) : Bool :=
  (p.positions.length : Int) < t.settings.numberStocks
    && t.settings.stockValue + 2.0 * t.settings.tradeCost ≤ p.cash

/-- The portfolio after a turn. -/
def step (t : Trader) (rules : Rules) (p : Portfolio) (turn : Turn) :
    Except TradeError Portfolio :=
  match p.position? turn.symbol with
  | some x => do
    let held := turn.day - x.entryDay
    if ← t.signal rules.sell turn held then
      if ← t.signal rules.buy turn held then return p
      else fill p (t.sell p turn.symbol (turn.day + 1))
    else return p
  | none =>
    if t.hasRoom p then do
      if ← t.signal rules.buy turn 0 then fill p (t.buy p turn.symbol (turn.day + 1))
      else return p
    else .ok p

/-- The portfolio after some turns, and why trading stopped if it did. -/
def follow (t : Trader) (rules : Rules) : List Turn → Portfolio → Portfolio × Option TradeError
  | [], p => (p, none)
  | turn :: rest, p =>
    match t.step rules p turn with
    | .ok p' => t.follow rules rest p'
    | .error e => (p, some e)

/-- The value at the end of all turns, or why trading stopped, and the portfolio then. -/
def run (t : Trader) (rules : Rules) : Except TradeError Float × Portfolio :=
  match t.follow rules t.turns t.initial with
  | (p, none) => (.ok (p.value t.source t.settings.endDay), p)
  | (p, some e) => (.error e, p)

end Trader

end TradeRules
