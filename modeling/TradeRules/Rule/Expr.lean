import TradeRules.Rule.Literal

/-!
# Expressions

A rule is an expression tree.  A leaf is a literal, a variable, a field of a quote, or a property of
the day's date.  Every other node is an operation with as many operands as it takes, one to four.
The constructors of `Expr` sort the operations by that number, so a tree cannot have a wrong number
of children, and whatever looks only at the shape of a tree has five cases.

`Head` is a node without its operands.  `Expr.head` and `Expr.operands` take a node apart, and
`Expr.ofHead?` puts one together again when the number of operands is right.
-/

namespace TradeRules

/-! ## Operations -/

/-- A property of a calendar date. -/
inductive DatePart where
  /-- The day of the month. -/
  | day
  /-- The day of the week, from 1 for Monday to 7. -/
  | dayOfWeek
  /-- The day of the year, from 1. -/
  | dayOfYear
  /-- The month of the year. -/
  | month
deriving DecidableEq, Repr

/-- The leaves. -/
inductive Leaf where
  | number (value : Literal)
  | truth (value : Bool)
  /-- A variable, with the kind it was declared with. -/
  | variable (name : String) (kind : ValueKind)
  | quote (field : Field)
  | date (part : DatePart)
deriving DecidableEq

/-- The operations on one operand. -/
inductive Unary where
  | not
  | sqrt
  | abs
deriving DecidableEq, Repr

/-- The four operations of arithmetic. -/
inductive Arithmetic where
  | add
  | subtract
  | multiply
  | divide
deriving DecidableEq, Repr

/-- The six comparisons. -/
inductive Comparison where
  | less
  | greater
  | lessEqual
  | greaterEqual
  | equal
  | notEqual
deriving DecidableEq, Repr

/-- The two connectives. -/
inductive Connective where
  | and
  | or
deriving DecidableEq, Repr

/-- The operations on two operands. -/
inductive Binary where
  | arithmetic (op : Arithmetic)
  | comparison (op : Comparison)
  | connective (op : Connective)
  /-- A share of a number in percent. -/
  | percent
  /-- The quote of one day. -/
  | lag
  /-- The relative strength index. -/
  | rsi
deriving DecidableEq, Repr

/-- The statistics of a window of quotes. -/
inductive Statistic where
  | average
  | minimum
  | maximum
  | total
  | deviation
  | lowerBand
  | upperBand
deriving DecidableEq, Repr

/-- The operations on three operands. -/
inductive Ternary where
  /-- A choice between two branches. -/
  | choice
  | statistic (s : Statistic)
  /-- The correlation with another symbol. -/
  | correlation (partner : String)
deriving DecidableEq, Repr

/-- The operations on four operands. -/
inductive Quaternary where
  /-- The exponential average. -/
  | ema
deriving DecidableEq, Repr

/-! ## Trees -/

/-- An expression tree. -/
inductive Expr where
  | leaf (l : Leaf)
  | unary (op : Unary) (a : Expr)
  | binary (op : Binary) (a b : Expr)
  | ternary (op : Ternary) (a b c : Expr)
  | quaternary (op : Quaternary) (a b c d : Expr)
deriving DecidableEq

namespace Expr

/-- A literal as an expression. -/
@[match_pattern] abbrev number (l : Literal) : Expr :=
  .leaf (.number l)

/-- A truth value as an expression. -/
@[match_pattern] abbrev truth (b : Bool) : Expr :=
  .leaf (.truth b)

/-- A field as an expression. -/
@[match_pattern] abbrev quote (f : Field) : Expr :=
  .leaf (.quote f)

/-- Negation. -/
@[match_pattern] abbrev not (a : Expr) : Expr :=
  .unary .not a

/-- Arithmetic. -/
@[match_pattern] abbrev arithmetic (op : Arithmetic) (a b : Expr) : Expr :=
  .binary (.arithmetic op) a b

/-- A comparison. -/
@[match_pattern] abbrev comparison (op : Comparison) (a b : Expr) : Expr :=
  .binary (.comparison op) a b

/-- A connective. -/
@[match_pattern] abbrev connective (op : Connective) (a b : Expr) : Expr :=
  .binary (.connective op) a b

/-- A choice: the first branch when the condition is true, else the second. -/
@[match_pattern] abbrev choice (condition a b : Expr) : Expr :=
  .ternary .choice condition a b

/-! ## Measures -/

/-- The number of nodes. -/
def size : Expr → Nat
  | .leaf _ => 1
  | .unary _ a => 1 + a.size
  | .binary _ a b => 1 + (a.size + b.size)
  | .ternary _ a b c => 1 + (a.size + b.size + c.size)
  | .quaternary _ a b c d => 1 + (a.size + b.size + c.size + d.size)

/-- The number of nodes on the longest way from the root to a leaf. -/
def depth : Expr → Nat
  | .leaf _ => 1
  | .unary _ a => 1 + a.depth
  | .binary _ a b => 1 + max a.depth b.depth
  | .ternary _ a b c => 1 + max (max a.depth b.depth) c.depth
  | .quaternary _ a b c d => 1 + max (max a.depth b.depth) (max c.depth d.depth)

/-- Whether a node is a leaf. -/
def isLeaf : Expr → Bool
  | .leaf _ => true
  | _ => false

end Expr

/-! ## Nodes taken apart -/

/-- A node without its operands. -/
inductive Head where
  | leaf (l : Leaf)
  | unary (op : Unary)
  | binary (op : Binary)
  | ternary (op : Ternary)
  | quaternary (op : Quaternary)
deriving DecidableEq

/-- The number of operands a node takes. -/
def Head.arity : Head → Nat
  | .leaf _ => 0
  | .unary _ => 1
  | .binary _ => 2
  | .ternary _ => 3
  | .quaternary _ => 4

namespace Expr

/-- The root of a tree without its operands. -/
def head : Expr → Head
  | .leaf l => .leaf l
  | .unary op _ => .unary op
  | .binary op _ _ => .binary op
  | .ternary op _ _ _ => .ternary op
  | .quaternary op _ _ _ _ => .quaternary op

/-- The operands of the root. -/
def operands : Expr → List Expr
  | .leaf _ => []
  | .unary _ a => [a]
  | .binary _ a b => [a, b]
  | .ternary _ a b c => [a, b, c]
  | .quaternary _ a b c d => [a, b, c, d]

/-- A node with the given operands, if they are as many as it takes. -/
def ofHead? : Head → List Expr → Option Expr
  | .leaf l, [] => some (.leaf l)
  | .unary op, [a] => some (.unary op a)
  | .binary op, [a, b] => some (.binary op a b)
  | .ternary op, [a, b, c] => some (.ternary op a b c)
  | .quaternary op, [a, b, c, d] => some (.quaternary op a b c d)
  | _, _ => none

/-- The tree with the operand at an index of the root exchanged.  Beyond the operands it is the
tree itself. -/
def setOperand : Expr → Nat → Expr → Expr
  | .unary op _, 0, e => .unary op e
  | .binary op _ b, 0, e => .binary op e b
  | .binary op a _, 1, e => .binary op a e
  | .ternary op _ b c, 0, e => .ternary op e b c
  | .ternary op a _ c, 1, e => .ternary op a e c
  | .ternary op a b _, 2, e => .ternary op a b e
  | .quaternary op _ b c d, 0, e => .quaternary op e b c d
  | .quaternary op a _ c d, 1, e => .quaternary op a e c d
  | .quaternary op a b _ d, 2, e => .quaternary op a b e d
  | .quaternary op a b c _, 3, e => .quaternary op a b c e
  | e, _, _ => e

/-- Taking a node apart and putting it together gives it back. -/
theorem ofHead?_head_operands (e : Expr) : ofHead? e.head e.operands = some e := by
  cases e <;> rfl

/-- A node has as many operands as its head takes. -/
theorem length_operands (e : Expr) : e.operands.length = e.head.arity := by
  cases e <;> rfl

end Expr

end TradeRules
