import TradeRules.Number.Form
import TradeRules.Rule.Kind

/-!
# Numeric literals

A literal is a whole number, kept exactly, or a double.  Both are finite: a whole number must be
near some finite double, since all arithmetic on it happens in doubles.  The bound is part of the
type, so every expression holds finite numbers only.

`Literal.ofInt?`, `Literal.ofDouble?` and `Literal.ofKind?` make literals from arbitrary numbers and
refuse what is not finite.
-/

namespace TradeRules

/-- A finite number written in an expression. -/
inductive Literal where
  /-- An INTEGER literal. -/
  | whole (n : Int) (finite : (Double.ofInt n).isFinite = true)
  /-- A FLOAT literal. -/
  | real (x : Float) (finite : x.isFinite = true)
deriving DecidableEq

namespace Literal

/-- The literal for a whole number. -/
def ofInt? (n : Int) : Option Literal :=
  if h : (Double.ofInt n).isFinite = true then some (.whole n h) else none

/-- The literal for a double. -/
def ofDouble? (x : Float) : Option Literal :=
  if h : x.isFinite = true then some (.real x h) else none

/-- The literal of a numeric kind nearest a double.  A whole number is the integer part. -/
def ofKind? : Kind → Float → Option Literal
  | .integer, x => if x.isFinite then ofInt? (Double.truncate x) else none
  | .float, x => ofDouble? x
  | _, _ => none

/-- The kind of a literal. -/
def kind : Literal → Kind
  | .whole .. => .integer
  | .real .. => .float

/-- The double that a literal evaluates to. -/
def toDouble : Literal → Float
  | .whole n _ => Double.ofInt n
  | .real x _ => x

/-- The text of a literal. -/
def text : Literal → String
  | .whole n _ => toString n
  | .real x _ => Double.text x

/-- Whether two literals are the same number of the same kind.  The two zeros are. -/
def same : Literal → Literal → Bool
  | .whole m _, .whole n _ => m == n
  | .real x _, .real y _ => x == y
  | _, _ => false

/-- Whether a literal is the given small whole number, in either kind. -/
def isExactly (n : Nat) : Literal → Bool
  | .whole m _ => m == n
  | .real x _ => x == Double.ofNat n

end Literal

end TradeRules
