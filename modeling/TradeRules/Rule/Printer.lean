import TradeRules.Rule.Expr
import TradeRules.Text.Quoted

/-!
# The text of an expression

`Expr.text` writes an expression the way rules are written.  Infix operations put parentheses around
an operand that is itself an infix operation, and around nothing else.  Function calls, choices and
literals, negative ones included, stand bare.

Each kind of node also has a title, under which messages about its construction name it.
-/

namespace TradeRules

/-! ## Words -/

/-- The function that reads a property of the date. -/
def DatePart.word : DatePart → String
  | .day => "day"
  | .dayOfWeek => "dayofweek"
  | .dayOfYear => "dayofyear"
  | .month => "month"

/-- The name of a function of one operand. -/
def Unary.word : Unary → String
  | .not => "not"
  | .sqrt => "sqrt"
  | .abs => "abs"

/-- The sign of an arithmetic operation. -/
def Arithmetic.sign : Arithmetic → String
  | .add => "+"
  | .subtract => "-"
  | .multiply => "*"
  | .divide => "/"

/-- The sign of a comparison. -/
def Comparison.sign : Comparison → String
  | .less => "<"
  | .greater => ">"
  | .lessEqual => "<="
  | .greaterEqual => ">="
  | .equal => "=="
  | .notEqual => "!="

/-- The word of a connective. -/
def Connective.word : Connective → String
  | .and => "and"
  | .or => "or"

/-- The name of a statistic. -/
def Statistic.word : Statistic → String
  | .average => "avg"
  | .minimum => "min"
  | .maximum => "max"
  | .total => "sum"
  | .deviation => "sd"
  | .lowerBand => "bbl"
  | .upperBand => "bbu"

/-! ## Text -/

/-- The text of a leaf. -/
def Leaf.text : Leaf → String
  | .number l => l.text
  | .truth b => if b then "true" else "false"
  | .variable name _ => name
  | .quote f => f.word
  | .date part => part.word ++ "()"

/-- What stands between the operands of an infix operation; the other binary operations are
functions. -/
def Binary.infixSign? : Binary → Option String
  | .arithmetic op => some op.sign
  | .comparison op => some op.sign
  | .connective op => some (" " ++ op.word ++ " ")
  | _ => none

/-- The name of a binary function; infix operations have none. -/
def Binary.word : Binary → String
  | .percent => "percent"
  | .lag => "lag"
  | .rsi => "rsi"
  | _ => ""

/-- Whether an expression is an infix operation, which stands in parentheses as an operand of
another. -/
def Expr.isInfix : Expr → Bool
  | .binary op _ _ => op.infixSign?.isSome
  | _ => false

/-- A text in parentheses when asked for. -/
def parenthesized (needed : Bool) (text : String) : String :=
  if needed then "(" ++ text ++ ")" else text

/-- The text of an expression. -/
def Expr.text : Expr → String
  | .leaf l => l.text
  | .unary op a => op.word ++ "(" ++ a.text ++ ")"
  | .binary op a b =>
    match op.infixSign? with
    | some sign => parenthesized a.isInfix a.text ++ sign ++ parenthesized b.isInfix b.text
    | none => op.word ++ "(" ++ a.text ++ ", " ++ b.text ++ ")"
  | .ternary .choice a b c =>
    "if(" ++ a.text ++ ") \x7b" ++ b.text ++ "\x7d else \x7b" ++ c.text ++ "\x7d"
  | .ternary (.statistic s) a b c =>
    s.word ++ "(" ++ a.text ++ ", " ++ b.text ++ ", " ++ c.text ++ ")"
  | .ternary (.correlation partner) a b c =>
    "corr(\"" ++ partner ++ "\", " ++ a.text ++ ", " ++ b.text ++ ", " ++ c.text ++ ")"
  | .quaternary .ema a b c d =>
    "ema(" ++ a.text ++ ", " ++ b.text ++ ", " ++ c.text ++ ", " ++ d.text ++ ")"

/-! ## Titles -/

/-- The title of an arithmetic operation. -/
def Arithmetic.title : Arithmetic → String
  | .add => "AddNode"
  | .subtract => "SubtractNode"
  | .multiply => "MultiplyNode"
  | .divide => "DivideNode"

/-- The title of a comparison. -/
def Comparison.title : Comparison → String
  | .less => "LessThanNode"
  | .greater => "GreaterThanNode"
  | .lessEqual => "LessThanEqualNode"
  | .greaterEqual => "GreaterThanEqualNode"
  | .equal => "EqualNode"
  | .notEqual => "NotEqualNode"

/-- The title of a statistic. -/
def Statistic.title : Statistic → String
  | .average => "AvgNode"
  | .minimum => "MinNode"
  | .maximum => "MaxNode"
  | .total => "SumNode"
  | .deviation => "StandardDeviationNode"
  | .lowerBand => "BollingerLowerNode"
  | .upperBand => "BollingerUpperNode"

/-- The title of a node. -/
def Head.title : Head → String
  | .leaf (.number _) => "NumberNode"
  | .leaf (.truth _) => "BooleanNode"
  | .leaf (.variable _ _) => "VariableNode"
  | .leaf (.quote _) => "QuoteNode"
  | .leaf (.date .day) => "DayNode"
  | .leaf (.date .dayOfWeek) => "DayOfWeekNode"
  | .leaf (.date .dayOfYear) => "DayOfYearNode"
  | .leaf (.date .month) => "MonthNode"
  | .unary .not => "NotNode"
  | .unary .sqrt => "SqrtNode"
  | .unary .abs => "AbsNode"
  | .binary (.arithmetic op) => op.title
  | .binary (.comparison op) => op.title
  | .binary (.connective .and) => "AndNode"
  | .binary (.connective .or) => "OrNode"
  | .binary .percent => "PercentNode"
  | .binary .lag => "LagNode"
  | .binary .rsi => "RSINode"
  | .ternary .choice => "IfNode"
  | .ternary (.statistic s) => s.title
  | .ternary (.correlation _) => "CorrNode"
  | .quaternary .ema => "EMANode"

/-- The title of an expression around its quoted text. -/
def Expr.describe (e : Expr) : String :=
  e.head.title ++ "(" ++ Text.quoted e.text ++ ")"

end TradeRules
