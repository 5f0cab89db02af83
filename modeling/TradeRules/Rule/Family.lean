import TradeRules.Rule.Simplify
import TradeRules.Rule.Typing

/-!
# Operations known by family only

The statistics form a family, and so do the comparisons.  The members of a family are typed alike
and differ in their name and in what they compute.  A `Draft` is an operation of which only the
family and the operands are chosen.  It has a text, without a name or a sign, it has a kind, and its
operands can be simplified, but it has no value.
-/

namespace TradeRules

/-- A family of operations. -/
inductive Family where
  | statistic
  | comparison
deriving DecidableEq, Repr

/-- A member that stands for the family where all members are alike. -/
def Family.member : Family → Head
  | .statistic => .ternary (.statistic .average)
  | .comparison => .binary (.comparison .less)

/-- The title of a family. -/
def Family.title : Family → String
  | .statistic => "WindowStatistic"
  | .comparison => "ComparisonOperator"

/-- The family with a title. -/
def Family.ofTitle? (title : String) : Option Family :=
  [Family.statistic, .comparison].find? fun f => f.title == title

/-- An operation of which the family and the operands are chosen. -/
structure Draft where
  /-- The family. -/
  family : Family
  /-- The operation with the member that stands for the family. -/
  like : Expr

namespace Draft

/-- A draft with the given operands. -/
def build (family : Family) (operands : List Expr) : Except BuildError Draft :=
  match Expr.ofHead? family.member operands with
  | some like => .ok ⟨family, like⟩
  | none => .error (.operandCount family.title family.member.arity operands.length)

/-- The text of a draft. -/
def text (d : Draft) : String :=
  let operands := d.like.operands
  match d.family with
  | .statistic => "(" ++ ", ".intercalate (operands.map Expr.text) ++ ")"
  | .comparison => String.join (operands.map fun e => parenthesized e.isInfix e.text)

/-- The title of a draft around its quoted text. -/
def describe (d : Draft) : String :=
  d.family.title ++ "(" ++ Text.quoted d.text ++ ")"

/-- The message of a mismatch found in a draft, which names the draft by its own text. -/
def mismatchMessage (d : Draft) (m : Mismatch) : String :=
  if m.node = d.like then "Type mismatch in '" ++ d.text ++ "': " ++ m.cause.message
  else m.message

/-- What simplifying a draft comes to. -/
inductive Simplified where
  /-- The draft with simplified operands. -/
  | draft (d : Draft)
  /-- Two operands that are the same, which no comparison is needed for. -/
  | expr (e : Expr)
  /-- Two literals, which cannot be compared without a comparison. -/
  | undecided

/-- The draft with its operands simplified. -/
def simplify (d : Draft) : Except BuildError Simplified := do
  let operands ← d.like.operands.mapM Expr.simplify
  let simplified ← build d.family operands
  match d.family, operands with
  | .comparison, [.number _, .number _] => return .undecided
  | .comparison, [a, b] =>
    if a.same b then return .expr (.truth false) else return .draft simplified
  | _, _ => return .draft simplified

end Draft

end TradeRules
