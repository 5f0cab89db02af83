import TradeRules.Rule.Equality
import TradeRules.Rule.Path
import TradeRules.Rule.Typing
import TradeRules.Trading.Trader

/-!
# Strategies

A strategy is a pair of BOOLEAN rules, one for buying and one for selling, with the value it was
scored with, if it was.  That both rules are well typed and BOOLEAN is part of the type.
`Strategy.make` refuses all other rules.
-/

namespace TradeRules

/-- A pair of BOOLEAN rules, with its score. -/
structure Strategy where
  /-- The rules. -/
  rules : Rules
  /-- The final value of the portfolio, once the rules have been traded on paper. -/
  value : Option Float := none
  /-- The buy rule is BOOLEAN. -/
  buy_boolean : rules.buy.check = .ok .boolean
  /-- The sell rule is BOOLEAN. -/
  sell_boolean : rules.sell.check = .ok .boolean

/-- Why rules do not make a strategy. -/
inductive StrategyError where
  | mismatch (m : Mismatch)
  /-- A rule has another kind than BOOLEAN. -/
  | notBoolean (side : Side) (rule : Expr) (kind : Kind)
deriving DecidableEq

/-- The message of a strategy error. -/
def StrategyError.message : StrategyError → String
  | .mismatch m => m.message
  | .notBoolean side rule kind =>
    "The " ++ side.word ++ " rule '" ++ rule.text ++ "' must be BOOLEAN, not " ++ kind.name

namespace Strategy

/-- Passes when a rule is BOOLEAN, with the proof that it is. -/
def requireBoolean (side : Side) (rule : Expr) :
    Except StrategyError (PLift (rule.check = .ok .boolean)) :=
  match rule.check with
  | .ok .boolean => .ok ⟨rfl⟩
  | .ok kind => .error (.notBoolean side rule kind)
  | .error m => .error (.mismatch m)

/-- The strategy of two rules, not yet scored. -/
def make (rules : Rules) : Except StrategyError Strategy := do
  let buy ← requireBoolean .buy rules.buy
  let sell ← requireBoolean .sell rules.sell
  return { rules, buy_boolean := buy.down, sell_boolean := sell.down }

/-- The strategy with a score. -/
def scored (s : Strategy) (value : Float) : Strategy :=
  { s with value := some value }

/-- The number of nodes of both rules. -/
def size (s : Strategy) : Nat :=
  s.rules.buy.size + s.rules.sell.size

/-- The depth of the deeper rule. -/
def depth (s : Strategy) : Nat :=
  max s.rules.buy.depth s.rules.sell.depth

/-- Whether a rule lies within a band of depths. -/
def inBand (least greatest : Int) (rule : Expr) : Bool :=
  least ≤ rule.depth && (rule.depth : Int) ≤ greatest

/-- Whether a rule has a site of quote kind. -/
def readsQuote (rule : Expr) : Bool :=
  let count (k : Kind) : Nat := (rule.countOf k).toOption.getD 0
  0 < count .floatQuote || 0 < count .integerQuote

/-- Whether both rules lie within a band of depths, and the buy rule reads a quote if it has to. -/
def isValid (s : Strategy) (least greatest : Int) (requireQuote : Bool) : Bool :=
  inBand least greatest s.rules.buy && inBand least greatest s.rules.sell
    && (!requireQuote || readsQuote s.rules.buy)

/-- Whether two strategies have the same rules and the same score. -/
def same (s t : Strategy) : Bool :=
  s.rules.buy.same t.rules.buy && s.rules.sell.same t.rules.sell && s.value == t.value

/-- The text of a strategy. -/
def text (s : Strategy) : String :=
  "buy: " ++ s.rules.buy.text ++ "  sell: " ++ s.rules.sell.text

end Strategy

end TradeRules
