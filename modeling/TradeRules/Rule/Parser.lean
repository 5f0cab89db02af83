import TradeRules.Number.Reading
import TradeRules.Rule.Token
import TradeRules.Rule.Typing
import TradeRules.Rule.Variables

/-!
# Parsing

The grammar, from the loosest operation to the tightest:

    expression  := conjunction ("or" conjunction)*
    conjunction := comparison ("and" comparison)*
    comparison  := sum [("<" | ">" | "<=" | ">=" | "==" | "!=") sum]
    sum         := product (("+" | "-") product)*
    product     := factor (("*" | "/") factor)*
    factor      := number | "-" number | "true" | "false"
                 | "(" expression ")"
                 | "if" "(" expression ")" "{" expression "}" "else" "{" expression "}"
                 | name "(" [argument ("," argument)*] ")"
                 | field | variable

A parser consumes tokens from the front of a list and answers an expression with the tokens that are
left.  The parser of each level is a function of the parser of whole expressions, which only a
factor calls, inside parentheses, braces or an argument list.  So `Parse.expression` recurses on a
bound for the depth of nesting, and the number of tokens is such a bound.  A chain of operations of
one level recurses on a bound for its length in the same way.

A name stands for a truth value, a choice, a function, a field or a variable, tried in this order.
A number without point and exponent is an INTEGER literal, any other a FLOAT literal.
-/

namespace TradeRules

/-! ## Errors -/

/-- Why a text is not an expression. -/
inductive SyntaxError where
  | stray (s : StrayCharacter)
  /-- The text has no tokens. -/
  | empty
  /-- The text ends where more is needed. -/
  | unfinished (text : String)
  /-- A token stands where it cannot. -/
  | unexpected (token : String) (position : Nat)
  /-- A string stands where it cannot; it is shown with its own quotes. -/
  | unexpectedString (token : String) (position : Nat)
  /-- Another token has to stand here. -/
  | expected (wanted found : String) (position : Nat)
  /-- A minus sign that no number follows. -/
  | loneMinus (position : Nat)
  /-- A number that no literal holds. -/
  | numberRange (position : Nat) (text : String)
  | unknownName (name : String) (position : Nat)
  /-- A function has to be given a symbol in quotes. -/
  | needsSymbol (function : String) (position : Nat)
  /-- A function is given fewer arguments than it takes. -/
  | fewArguments (function : String) (takes got : Nat)
  /-- The arguments of a function do not end where they should. -/
  | manyArguments (function : String) (takes : Nat)
deriving DecidableEq, Repr

/-- The message of a syntax error. -/
def SyntaxError.message : SyntaxError → String
  | .stray s => s.message
  | .empty => "Empty expression"
  | .unfinished text => "Unexpected end of expression '" ++ text ++ "'"
  | .unexpected token position =>
    "Unexpected " ++ Text.quoted token ++ " at position " ++ toString position
  | .unexpectedString token position =>
    "Unexpected string " ++ token ++ " at position " ++ toString position
  | .expected wanted found position =>
    "Expected " ++ Text.quoted wanted ++ " but found " ++ Text.quoted found ++ " at position "
      ++ toString position
  | .loneMinus position => "Expected a number after '-' at position " ++ toString position
  | .numberRange position text =>
    "Number out of range at position " ++ toString position ++ ": " ++ text
  | .unknownName name position =>
    "Unknown identifier " ++ Text.quoted name ++ " at position " ++ toString position
  | .needsSymbol function position =>
    function ++ "() expects a quoted symbol at position " ++ toString position
  | .fewArguments function takes got =>
    function ++ "() expects " ++ toString takes ++ " arguments, got " ++ toString got
  | .manyArguments function takes =>
    function ++ "() expects " ++ toString takes ++ " arguments"

/-! ## Functions by name -/

/-- What a function name stands for. -/
inductive Callee where
  /-- A function whose arguments are the operands of a node. -/
  | node (head : Head)
  /-- The correlation, which takes a symbol before its operands. -/
  | correlation
deriving DecidableEq

/-- The number of expressions among the arguments of a function. -/
def Callee.arity : Callee → Nat
  | .node head => head.arity
  | .correlation => 3

/-- The functions and their names. -/
def Callee.all : List (String × Callee) :=
  [Unary.not, .sqrt, .abs].map (fun op => (op.word, .node (.unary op)))
    ++ [Binary.percent, .lag, .rsi].map (fun op => (op.word, .node (.binary op)))
    ++ [("ema", .node (.quaternary .ema)), ("corr", .correlation)]
    ++ [Statistic.average, .minimum, .maximum, .total, .deviation, .lowerBand, .upperBand].map
      (fun s => (s.word, .node (.ternary (.statistic s))))
    ++ [DatePart.day, .dayOfWeek, .dayOfYear, .month].map
      (fun part => (part.word, .node (.leaf (.date part))))

/-- The function with a name. -/
def Callee.ofName? (name : String) : Option Callee :=
  all.lookup name

/-! ## Numbers -/

namespace Literal

/-- The most digits a whole number is read from. -/
def digitLimit : Nat :=
  4300

/-- The literal a number token means, negated when a minus sign stands before it. -/
def read? (negative : Bool) (text : String) : Option Literal :=
  let cs := text.toList
  if cs.any fun c => c == '.' || Decimal.isMark c then
    let x := (Decimal.ofChars cs).toDouble
    ofDouble? (if negative then -x else x)
  else if digitLimit < cs.length then none
  else
    let n := Text.numberOfDigits cs
    ofInt? (if negative then -(n : Int) else n)

end Literal

/-! ## Parsers -/

/-- What a parser knows besides the tokens. -/
structure Scope where
  /-- The whole text, for messages. -/
  text : String
  /-- The variables that may be referred to. -/
  bindings : Variables

/-- A parser: it consumes tokens from the front of a list. -/
abbrev Parse (α : Type) : Type :=
  StateT (List Token) (Except SyntaxError) α

namespace Parse

/-- Whether the next token is the given name or sign. -/
def isAt (text : String) : Parse Bool :=
  fun ts => .ok ((ts.head?.any fun t => (t.kind = .sign ∨ t.kind = .name) ∧ t.text = text), ts)

/-- The next token, consumed. -/
def next (scope : Scope) : Parse Token
  | t :: ts => .ok (t, ts)
  | [] => .error (.unfinished scope.text)

/-- The next token dropped. -/
def skip : Parse Unit :=
  fun ts => .ok ((), ts.drop 1)

/-- The next token consumed, which has to have the given text. -/
def expect (scope : Scope) (text : String) : Parse Unit := do
  let t ← next scope
  if t.text ≠ text then throw (.expected text t.text t.position)

/-- The operations of one level of the grammar, by the text of their token. -/
abbrev Signs : Type :=
  List (String × Binary)

/-- The operation whose sign or word comes next. -/
def sign? (signs : Signs) : Parse (Option Binary) :=
  fun ts =>
    let found := ts.head?.bind fun t =>
      if t.kind = .sign ∨ t.kind = .name then signs.lookup t.text else none
    .ok (found, ts)

/-- More operands of a chain after its first ones, at most `bound` many, grouped to the left. -/
def more (signs : Signs) (operand : Parse Expr) : Nat → Expr → Parse Expr
  | 0, left => pure left
  | bound + 1, left => do
    match ← sign? signs with
    | none => pure left
    | some op =>
      skip
      let right ← operand
      more signs operand bound (.binary op left right)

/-- Operands joined by operations of one level. -/
def chain (signs : Signs) (operand : Parse Expr) : Parse Expr := do
  let first ← operand
  more signs operand (← get).length first

/-- The literal for a number token. -/
def literal (negative : Bool) (t : Token) (position : Nat) : Parse Expr :=
  match Literal.read? negative t.text with
  | some l => pure (.number l)
  | none => throw (.numberRange position (if negative then "-" ++ t.text else t.text))

/-- The branches of a choice after its word. -/
def branches (scope : Scope) (inner : Parse Expr) : Parse Expr := do
  expect scope "("
  let condition ← inner
  expect scope ")"
  expect scope "\x7b"
  let a ← inner
  expect scope "\x7d"
  expect scope "else"
  expect scope "\x7b"
  let b ← inner
  expect scope "\x7d"
  return .choice condition a b

/-- The expressions among the arguments of a function, `missing` of them, after the given number
of arguments that have been read. -/
def arguments (function : String) (takes : Nat) (inner : Parse Expr) :
    Nat → Nat → Parse (List Expr)
  | 0, _ => pure []
  | missing + 1, before => do
    let a ← inner
    if missing ≠ 0 then
      if ← isAt "," then skip
      else throw (.fewArguments function takes (before + 1))
    return a :: (← arguments function takes inner missing (before + 1))

/-- The symbol before the other arguments of the correlation, without its quotes. -/
def partner (scope : Scope) (function : String) : Parse String := do
  let t ← next scope
  if t.kind ≠ .string then throw (.needsSymbol function t.position)
  expect scope ","
  return String.ofList ((t.text.toList.drop 1).dropLast)

/-- The end of an argument list. -/
def closing (function : String) (takes : Nat) : Parse Unit := do
  if ← isAt ")" then skip
  else throw (.manyArguments function takes)

/-- The call of a function after its name. -/
def call (scope : Scope) (inner : Parse Expr) (function : String) (callee : Callee) :
    Parse Expr := do
  expect scope "("
  let (head, before) ←
    match callee with
    | .node head => pure (head, 0)
    | .correlation => do
      let symbol ← partner scope function
      pure (Head.ternary (.correlation symbol), 1)
  let operands ← arguments function callee.arity inner callee.arity before
  closing function callee.arity
  match Expr.ofHead? head operands with
  | some e => return e
  | none => throw (.manyArguments function callee.arity)

/-- What a name that is neither a word of the grammar nor a function refers to. -/
def reference (scope : Scope) (t : Token) : Parse Expr :=
  match Field.ofWord? t.text with
  | some f => pure (.quote f)
  | none =>
    match scope.bindings.get? t.text with
    | some v => pure (.leaf (.variable v.name v.kind))
    | none => throw (.unknownName t.text t.position)

/-- What starts with a name. -/
def named (scope : Scope) (inner : Parse Expr) (t : Token) : Parse Expr :=
  if t.text = "true" then pure (.truth true)
  else if t.text = "false" then pure (.truth false)
  else if t.text = "if" then branches scope inner
  else
    match Callee.ofName? t.text with
    | some callee => call scope inner t.text callee
    | none => reference scope t

/-- What starts with a sign: a negative number, or an expression in parentheses. -/
def signed (scope : Scope) (inner : Parse Expr) (t : Token) : Parse Expr := do
  if t.text = "-" then
    let number ← next scope
    if number.kind = .number then literal true number t.position
    else throw (.loneMinus t.position)
  else if t.text = "(" then
    let e ← inner
    expect scope ")"
    return e
  else throw (.unexpected t.text t.position)

/-- A factor, given the parser of the expressions inside it. -/
def factor (scope : Scope) (inner : Parse Expr) : Parse Expr := do
  let t ← next scope
  match t.kind with
  | .number => literal false t t.position
  | .sign => signed scope inner t
  | .string => throw (.unexpectedString t.text t.position)
  | .name => named scope inner t

/-- The operations of a product. -/
def productSigns : Signs :=
  [Arithmetic.multiply, .divide].map fun op => (op.sign, .arithmetic op)

/-- The operations of a sum. -/
def sumSigns : Signs :=
  [Arithmetic.add, .subtract].map fun op => (op.sign, .arithmetic op)

/-- The comparisons. -/
def comparisonSigns : Signs :=
  [Comparison.less, .greater, .lessEqual, .greaterEqual, .equal, .notEqual].map fun op =>
    (op.sign, .comparison op)

/-- The operation of a conjunction. -/
def conjunctionSigns : Signs :=
  [(Connective.and.word, .connective .and)]

/-- The operation of a disjunction. -/
def disjunctionSigns : Signs :=
  [(Connective.or.word, .connective .or)]

/-- A sum, given the parser of the expressions inside it. -/
def sum (scope : Scope) (inner : Parse Expr) : Parse Expr :=
  chain sumSigns (chain productSigns (factor scope inner))

/-- A sum, or two sums compared. -/
def comparison (scope : Scope) (inner : Parse Expr) : Parse Expr := do
  let left ← sum scope inner
  match ← sign? comparisonSigns with
  | none => pure left
  | some op =>
    skip
    let right ← sum scope inner
    return .binary op left right

/-- An expression whose nesting is within a bound. -/
def expression (scope : Scope) : Nat → Parse Expr
  | 0 => throw (.unfinished scope.text)
  | bound + 1 =>
    chain disjunctionSigns
      (chain conjunctionSigns (comparison scope (expression scope bound)))

/-- An expression that takes up all tokens. -/
def whole (scope : Scope) (ts : List Token) : Except SyntaxError Expr := do
  if ts.isEmpty then throw .empty
  let (e, rest) ← (expression scope (ts.length + 1)).run ts
  match rest with
  | [] => return e
  | t :: _ => throw (.unexpected t.text t.position)

end Parse

/-! ## From text to a checked expression -/

/-- Why a text is not a well-typed expression. -/
inductive RuleError where
  | malformed (e : SyntaxError)
  | mismatch (m : Mismatch)
deriving DecidableEq

/-- The message of a rule error. -/
def RuleError.message : RuleError → String
  | .malformed e => e.message
  | .mismatch m => m.message

namespace Expr

/-- The expression a text means, whether it is well typed or not. -/
def read (text : String) (bindings : Variables) : Except SyntaxError Expr := do
  let ts ← (tokens text).mapError .stray
  Parse.whole { text, bindings } ts

/-- The well-typed expression a text means, with its kind. -/
def parseKind (text : String) (bindings : Variables) : Except RuleError (Expr × Kind) := do
  let e ← (read text bindings).mapError .malformed
  let k ← e.check.mapError .mismatch
  return (e, k)

/-- The well-typed expression a text means. -/
def parse (text : String) (bindings : Variables) : Except RuleError Expr :=
  (parseKind text bindings).map Prod.fst

end Expr

end TradeRules
