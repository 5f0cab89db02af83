import TradeRules.Rule.Printer

/-!
# Building expressions from parts

A tree can be put together from titles, operands and data that do not come from the text of a rule.
What is refused here is refused for its shape: a number of operands that the node does not take, a
literal that is not finite or not numeric, a variable of quote kind, a field that does not exist.
Whether the operands have fitting kinds is a separate question.

`Expr.declaredKind` is the kind a node has when its operands fit.  It follows one operand at each
node and so is partial: the quote functions need an operand of quote kind.
-/

namespace TradeRules

/-- Why an expression cannot be built, or has no kind. -/
inductive BuildError where
  /-- A statistic is taken of something that is not a quote. -/
  | notQuote (kind : Kind)
  /-- A literal cannot have this kind. -/
  | literalKind (kind : Kind)
  /-- A literal has this text, which is not that of a finite number. -/
  | notFinite (text : String)
  /-- A variable cannot have a quote kind. -/
  | variableKind (name : String)
  /-- A node has a wrong number of operands. -/
  | operandCount (title : String) (needed got : Nat)
  /-- No field has this name. -/
  | unknownField (name : String)
deriving DecidableEq, Repr

/-- The message of a construction error. -/
def BuildError.message : BuildError → String
  | .notQuote k => k.name ++ " is not a quote type"
  | .literalKind k => "Number literal cannot have type " ++ k.name
  | .notFinite text => "Number literal must be finite, got " ++ text
  | .variableKind name => "Variable " ++ name ++ " cannot have quote type"
  | .operandCount title needed got =>
    title ++ " needs " ++ toString needed ++ " children, got " ++ toString got
  | .unknownField name => Text.quoted name ++ " is not a valid QuoteKind"

/-- A number given from outside: whole numbers are exact. -/
inductive Numeral where
  | whole (n : Int)
  | real (x : Float)

namespace Numeral

/-- The double nearest a number. -/
def toDouble : Numeral → Float
  | .whole n => Double.ofInt n
  | .real x => x

/-- The text of a number in messages. -/
def text : Numeral → String
  | .whole n => toString n
  | .real x => Double.text x

end Numeral

namespace Literal

/-- The literal of a given kind for a number. -/
def build (kind : Kind) (value : Numeral) : Except BuildError Literal :=
  if kind.isNumeric then
    let literal? :=
      match kind, value with
      | .integer, .whole n => ofInt? n
      | _, .whole n => ofDouble? (Double.ofInt n)
      | k, .real x => ofKind? k x
    match literal? with
    | some l => .ok l
    | none => .error (.notFinite value.text)
  else .error (.literalKind kind)

/-- The literal of a given kind for a small whole number that a simplification introduces. -/
def small (n : Nat) (kind : Kind) : Except BuildError Literal :=
  build kind (.whole n)

end Literal

/-- The kind of a statistic of a quote of the given kind. -/
def Kind.ofQuote (k : Kind) : Except BuildError Kind :=
  match k.ofQuote? with
  | some number => .ok number
  | none => .error (.notQuote k)

/-- The kind of a leaf. -/
def Leaf.kind : Leaf → Kind
  | .number l => l.kind
  | .truth _ => .boolean
  | .variable _ k => k.kind
  | .quote f => f.kind
  | .date _ => .integer

namespace Expr

/-- The kind of an expression whose operands fit. -/
def declaredKind : Expr → Except BuildError Kind
  | .leaf l => .ok l.kind
  | .unary .not _ => .ok .boolean
  | .unary _ a => a.declaredKind
  | .binary (.arithmetic _) a _ => a.declaredKind
  | .binary (.comparison _) _ _ => .ok .boolean
  | .binary (.connective _) _ _ => .ok .boolean
  | .binary .percent a _ => a.declaredKind
  | .binary .lag a _ => a.declaredKind.bind Kind.ofQuote
  | .binary .rsi _ _ => .ok .float
  | .ternary .choice _ b _ => b.declaredKind
  | .ternary (.statistic _) a _ _ => a.declaredKind.bind Kind.ofQuote
  | .ternary (.correlation _) _ _ _ => .ok .float
  | .quaternary .ema a _ _ _ => a.declaredKind.bind Kind.ofQuote

/-- A variable of the given kind. -/
def buildVariable (name : String) (kind : Kind) : Except BuildError Expr :=
  match kind.toValueKind? with
  | some k => .ok (.leaf (.variable name k))
  | none => .error (.variableKind name)

/-- The field with the given name. -/
def buildQuote (name : String) : Except BuildError Expr :=
  match Field.ofWord? name with
  | some f => .ok (.quote f)
  | none => .error (.unknownField name)

/-- A node with the given operands. -/
def build (head : Head) (operands : List Expr) : Except BuildError Expr :=
  match ofHead? head operands with
  | some e => .ok e
  | none => .error (.operandCount head.title head.arity operands.length)

end Expr

/-- The heads that carry no data of their own. -/
def Head.plain : List Head :=
  [.leaf (.date .day), .leaf (.date .dayOfWeek), .leaf (.date .dayOfYear), .leaf (.date .month),
    .unary .not, .unary .sqrt, .unary .abs,
    .binary (.arithmetic .add), .binary (.arithmetic .subtract), .binary (.arithmetic .multiply),
    .binary (.arithmetic .divide),
    .binary (.comparison .less), .binary (.comparison .greater), .binary (.comparison .lessEqual),
    .binary (.comparison .greaterEqual), .binary (.comparison .equal),
    .binary (.comparison .notEqual),
    .binary (.connective .and), .binary (.connective .or), .binary .percent, .binary .lag,
    .binary .rsi, .ternary .choice,
    .ternary (.statistic .average), .ternary (.statistic .minimum), .ternary (.statistic .maximum),
    .ternary (.statistic .total), .ternary (.statistic .deviation),
    .ternary (.statistic .lowerBand), .ternary (.statistic .upperBand), .quaternary .ema]

/-- The head without data that has a given title. -/
def Head.ofTitle? (title : String) : Option Head :=
  plain.find? fun h => h.title == title

end TradeRules
