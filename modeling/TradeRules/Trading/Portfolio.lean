import TradeRules.Market.Window
import TradeRules.Number.Double

/-!
# Portfolios

A portfolio is cash, open positions in the order of their opening, and the log of all trades.
Orders are filled at the open of a day.  `Portfolio.buy` spends at most a given amount on whole
shares of a symbol, and `Portfolio.sell` sells a whole position.  Each trade also costs a fee.

An order either changes cash, positions and log together or nothing: it fails when there is no
opening price, and it is declined when not a single share is affordable or when nothing is held.
-/

namespace TradeRules

/-- An open position. -/
structure Position where
  /-- What is held. -/
  symbol : Symbol
  /-- The number of shares. -/
  shares : Int
  /-- The price paid for each. -/
  entryPrice : Float
  /-- The day of the purchase. -/
  entryDay : Int

/-- The two sides of trading. -/
inductive Side where
  | buy
  | sell
deriving DecidableEq, Repr

/-- The word for a side. -/
def Side.word : Side → String
  | .buy => "buy"
  | .sell => "sell"

/-- A completed trade. -/
structure Trade where
  /-- What was traded. -/
  symbol : Symbol
  /-- The day. -/
  day : Int
  /-- The number of shares. -/
  shares : Int
  /-- The price of each. -/
  price : Float
  /-- Whether it was bought or sold. -/
  side : Side

/-- Cash, open positions, and the log of trades. -/
structure Portfolio where
  /-- The cash. -/
  cash : Float
  /-- The open positions, in the order of their opening. -/
  positions : List Position := []
  /-- All trades, oldest first. -/
  trades : List Trade := []

/-- Why an order cannot be filled. -/
inductive OrderError where
  | missing (e : MissingQuote)
  /-- The number of shares is not a number. -/
  | sharesNaN
  /-- The number of shares is infinite. -/
  | sharesInfinite
deriving DecidableEq

/-- The message of an order error. -/
def OrderError.message : OrderError → String
  | .missing e => e.message
  | .sharesNaN => "cannot convert float NaN to integer"
  | .sharesInfinite => "cannot convert float infinity to integer"

namespace Portfolio

/-- The position in a symbol. -/
def position? (p : Portfolio) (symbol : Symbol) : Option Position :=
  p.positions.find? fun x => x.symbol == symbol

/-- The positions with one put in the place of that in the same symbol, or last. -/
def putPosition (positions : List Position) (x : Position) : List Position :=
  if positions.any fun y => y.symbol == x.symbol then
    positions.map fun y => if y.symbol == x.symbol then x else y
  else positions ++ [x]

/-- The cost of shares at a price with the fee. -/
def cost (shares : Int) (price fee : Float) : Float :=
  Double.ofInt shares * price + fee

/-- The proceeds of shares at a price less the fee. -/
def proceeds (shares : Int) (price fee : Float) : Float :=
  Double.ofInt shares * price - fee

/-- The number of whole shares that an amount buys at a positive price. -/
def affordable (amount price : Float) : Except OrderError Int :=
  let count := Double.floorQuotient amount price
  if count.isNaN then .error .sharesNaN
  else if count.isInf then .error .sharesInfinite
  else .ok (Double.truncate count)

/-- A purchase at the open of a day, for at most the given amount.  The position is none when not a
single share can be bought. -/
def buy (p : Portfolio) (source : Source) (amount fee : Float) (symbol : Symbol) (day : Int) :
    Except OrderError (Option Position × Portfolio) := do
  let price ← (source.quote symbol .opening day).mapError .missing
  if price ≤ 0.0 then return (none, p)
  let shares ← affordable amount price
  let spent := cost shares price fee
  if shares = 0 ∨ p.cash < spent then return (none, p)
  let x : Position := { symbol, shares, entryPrice := price, entryDay := day }
  let t : Trade := { symbol, day, shares, price, side := .buy }
  return (some x,
    { cash := p.cash - spent, positions := putPosition p.positions x, trades := p.trades ++ [t] })

/-- The sale of a whole position at the open of a day.  The trade is none when nothing is held. -/
def sell (p : Portfolio) (source : Source) (fee : Float) (symbol : Symbol) (day : Int) :
    Except OrderError (Option Trade × Portfolio) :=
  match p.position? symbol with
  | none => .ok (none, p)
  | some x => do
    let price ← (source.quote symbol .opening day).mapError .missing
    let t : Trade := { symbol, day, shares := x.shares, price, side := .sell }
    return (some t,
      { cash := p.cash + proceeds x.shares price fee
        positions := p.positions.filter fun y => y.symbol != symbol
        trades := p.trades ++ [t] })

/-- The latest close of a position on the days from its purchase to a given day, or the price paid
when there is none. -/
def lastClose (source : Source) (x : Position) (day : Int) : Float :=
  ((source.daysBetween x.entryDay day).reverse.findSome? fun d =>
    source.quote? x.symbol .closing d).getD x.entryPrice

/-- Cash and the value of the open positions at the close of a day. -/
def value (p : Portfolio) (source : Source) (day : Int) : Float :=
  p.positions.foldl
    (fun total x => total + Double.ofInt x.shares * lastClose source x day) p.cash

end Portfolio

end TradeRules
