import TradeRules.Rule.Construction

/-!
# What the operations compute

The numeric meaning of the operations, shared by the evaluator and by constant folding.  Arithmetic
is that of doubles.  Division by zero and the root of a negative number are zero.  A result of
INTEGER kind loses its fraction, toward zero, while infinities and NaN stay as they are.

Comparisons of values compare doubles.  Comparisons of literals compare the exact numbers, which
for whole numbers beyond `2 ^ 53` is finer.
-/

namespace TradeRules

/-- An arithmetic operation on doubles. -/
def Arithmetic.apply : Arithmetic → Float → Float → Float
  | .add, x, y => x + y
  | .subtract, x, y => x - y
  | .multiply, x, y => x * y
  | .divide, x, y => if y == 0.0 then 0.0 else x / y

/-- `share` percent of `x`. -/
def percentOf (x share : Float) : Float :=
  x * share / 100.0

/-- The square root, zero unless the number is positive. -/
def positiveRoot (x : Float) : Float :=
  if 0.0 < x then x.sqrt else 0.0

/-- A number of the given kind: a finite INTEGER loses its fraction. -/
def Kind.settle (k : Kind) (x : Float) : Float :=
  if k = .integer ∧ x.isFinite = true then Double.ofInt (Double.truncate x) else x

/-! ## Comparisons -/

namespace Comparison

/-- Whether a comparison of two doubles is true. -/
def holds : Comparison → Float → Float → Bool
  | .less, x, y => x < y
  | .greater, x, y => y < x
  | .lessEqual, x, y => x ≤ y
  | .greaterEqual, x, y => y ≤ x
  | .equal, x, y => x == y
  | .notEqual, x, y => x != y

/-- Whether a comparison is true of two numbers in the given order. -/
def holdsOf : Comparison → Ordering → Bool
  | .less, o => o == .lt
  | .greater, o => o == .gt
  | .lessEqual, o => o != .gt
  | .greaterEqual, o => o != .lt
  | .equal, o => o == .eq
  | .notEqual, o => o != .eq

/-- The comparison that is true exactly when this one is false. -/
def negation : Comparison → Comparison
  | .less => .greaterEqual
  | .greater => .lessEqual
  | .lessEqual => .greater
  | .greaterEqual => .less
  | .equal => .notEqual
  | .notEqual => .equal

/-- Whether a comparison is true of a number and itself. -/
def reflexive (op : Comparison) : Bool :=
  op.holdsOf .eq

/-- The negation of a comparison is true of an order exactly when the comparison is not. -/
theorem holdsOf_negation (op : Comparison) (o : Ordering) :
    op.negation.holdsOf o = !op.holdsOf o := by
  cases op <;> cases o <;> rfl

end Comparison

namespace Literal

/-- The order of two finite doubles. -/
def orderDoubles (x y : Float) : Ordering :=
  if x < y then .lt else if y < x then .gt else .eq

/-- The exact order of a whole number and a finite double.  The integer part decides, and between
equal integer parts the fraction. -/
def orderMixed (n : Int) (x : Float) : Ordering :=
  let whole := Double.truncate x
  if n < whole then .lt
  else if whole < n then .gt
  else orderDoubles (Double.ofInt whole) x

/-- The order of two literals as exact numbers. -/
def order : Literal → Literal → Ordering
  | .whole m _, .whole n _ => compare m n
  | .whole m _, .real y _ => orderMixed m y
  | .real x _, .whole n _ => (orderMixed n x).swap
  | .real x _, .real y _ => orderDoubles x y

end Literal

end TradeRules
