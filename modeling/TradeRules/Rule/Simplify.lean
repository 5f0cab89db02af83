import TradeRules.Rule.Equality
import TradeRules.Rule.Operation

/-!
# Simplification

`Expr.simplify` reduces a tree in one pass from the leaves up.  The operands of a node are
simplified first, then the rules of the node are tried once, in a fixed order.

* Operations on literals are computed.  The result is a literal of the kind of the first operand,
  unless it is not finite.
* Arithmetic with a neutral or an absorbing literal, or on two expressions that are the same up to
  the order of operands, has a shorter form: `0*a`, `1*a`, `a+0`, `a-a`, `a/1`, `a/a`, and `a+a`,
  which becomes `2*a`.
* Truth values are absorbed by connectives and choices.
* A negated comparison becomes the opposite comparison, a double negation goes away, and a choice
  on a negated condition exchanges its branches.

A rule that introduces a literal gives it the kind of the first operand.  This is the one place
where simplification can fail, and only on a tree that is not well typed.
-/

namespace TradeRules

/-! ## Rules of arithmetic -/

/-- The literal for a computed number of the kind of a given literal, if it is finite. -/
def Literal.fold (like : Literal) (x : Float) : Option Expr :=
  (ofKind? like.kind x).map Expr.number

namespace Expr

/-- Whether an expression is the given small whole number as a literal of either kind. -/
def isNumber (n : Nat) : Expr → Bool
  | .number l => l.isExactly n
  | _ => false

/-- A small whole number as a literal of the declared kind of `like`. -/
def smallLike (n : Nat) (like : Expr) : Except BuildError Expr := do
  let k ← like.declaredKind
  return .number (← Literal.small n k)

/-- The operation on two literals, computed. -/
def foldArithmetic (op : Arithmetic) : Expr → Expr → Option Expr
  | .number l, .number m => l.fold (op.apply l.toDouble m.toDouble)
  | _, _ => none

/-- The identities of arithmetic. -/
def identities (op : Arithmetic) (a b : Expr) : Except BuildError Expr :=
  match op with
  | .add =>
    if b.isNumber 0 then .ok a
    else if a.isNumber 0 then .ok b
    else if a.same b then do return .arithmetic .multiply (← smallLike 2 a) a
    else .ok (.arithmetic .add a b)
  | .subtract =>
    if b.isNumber 0 then .ok a
    else if a.same b then smallLike 0 a
    else .ok (.arithmetic .subtract a b)
  | .multiply =>
    if a.isNumber 0 || b.isNumber 0 then smallLike 0 a
    else if a.isNumber 1 then .ok b
    else if b.isNumber 1 then .ok a
    else .ok (.arithmetic .multiply a b)
  | .divide =>
    if b.isNumber 1 then .ok a
    else if a.isNumber 0 then smallLike 0 a
    else if a.same b then smallLike 1 a
    else .ok (.arithmetic .divide a b)

/-- The rules of arithmetic. -/
def reduceArithmetic (op : Arithmetic) (a b : Expr) : Except BuildError Expr :=
  match foldArithmetic op a b with
  | some e => .ok e
  | none => identities op a b

/-- The rule of shares in percent. -/
def reducePercent : Expr → Expr → Expr
  | .number l, .number m =>
    (l.fold (percentOf l.toDouble m.toDouble)).getD (.binary .percent (.number l) (.number m))
  | a, b => .binary .percent a b

/-- The rules of the square root and the absolute value. -/
def reduceFunction (op : Unary) (f : Float → Float) : Expr → Expr
  | .number l => (l.fold (f l.toDouble)).getD (.unary op (.number l))
  | a => .unary op a

/-! ## Rules of truth values -/

/-- The rules of comparisons. -/
def reduceComparison (op : Comparison) : Expr → Expr → Expr
  | .number l, .number m => .truth (op.holdsOf (l.order m))
  | a, b => if a.same b then .truth op.reflexive else .comparison op a b

/-- The rules of negation. -/
def reduceNot : Expr → Expr
  | .truth b => .truth (!b)
  | .not a => a
  | .comparison op a b => reduceComparison op.negation a b
  | a => .not a

/-- What a connective with a known operand comes to: the other operand, or the known value. -/
def absorb (op : Connective) (known : Bool) (other : Expr) : Expr :=
  match op with
  | .and => if known then other else .truth false
  | .or => if known then .truth true else other

/-- The rules of connectives. -/
def reduceConnective (op : Connective) : Expr → Expr → Expr
  | .truth known, b => absorb op known b
  | a, .truth known => absorb op known a
  | a, b => if a.same b then a else .connective op a b

/-- The rules of choices. -/
def reduceChoice : Expr → Expr → Expr → Expr
  | .truth known, a, b => if known then a else b
  | .not c, a, b => if a.same b then a else reduceChoice c b a
  | c, a, b => if a.same b then a else .choice c a b

/-! ## One pass -/

/-- The rules of the operations on one operand. -/
def reduceUnary : Unary → Expr → Expr
  | .not, a => reduceNot a
  | .sqrt, a => reduceFunction .sqrt positiveRoot a
  | .abs, a => reduceFunction .abs Float.abs a

/-- The rules of the operations on two operands. -/
def reduceBinary : Binary → Expr → Expr → Except BuildError Expr
  | .arithmetic op, a, b => reduceArithmetic op a b
  | .comparison op, a, b => .ok (reduceComparison op a b)
  | .connective op, a, b => .ok (reduceConnective op a b)
  | .percent, a, b => .ok (reducePercent a b)
  | .lag, a, b => .ok (.binary .lag a b)
  | .rsi, a, b => .ok (.binary .rsi a b)

/-- The rules of the operations on three operands. -/
def reduceTernary : Ternary → Expr → Expr → Expr → Expr
  | .choice, a, b, c => reduceChoice a b c
  | op, a, b, c => .ternary op a b c

/-- The simplified form of an expression. -/
def simplify : Expr → Except BuildError Expr
  | .leaf l => .ok (.leaf l)
  | .unary op a => do
    let a ← a.simplify
    return reduceUnary op a
  | .binary op a b => do
    let a ← a.simplify
    let b ← b.simplify
    reduceBinary op a b
  | .ternary op a b c => do
    let a ← a.simplify
    let b ← b.simplify
    let c ← c.simplify
    return reduceTernary op a b c
  | .quaternary op a b c d => do
    let a ← a.simplify
    let b ← b.simplify
    let c ← c.simplify
    let d ← d.simplify
    return .quaternary op a b c d

end Expr

end TradeRules
