import TradeRules.Rule.Expr

/-!
# Equality up to the order of operands

Two expressions are the same when one becomes the other by exchanging the operands of commutative
operations, at any depth.  These are addition, multiplication, the two connectives, and the tests
for equal and unequal.  Literals are compared as numbers, so the two zeros are the same.
-/

namespace TradeRules

/-- Whether the operands may be exchanged. -/
def Binary.commutative : Binary → Bool
  | .arithmetic .add | .arithmetic .multiply => true
  | .comparison .equal | .comparison .notEqual => true
  | .connective _ => true
  | _ => false

/-- Whether two leaves are the same. -/
def Leaf.same : Leaf → Leaf → Bool
  | .number l, .number m => l.same m
  | l, m => l == m

namespace Expr

/-- Whether two expressions are the same up to the order of operands. -/
def same : Expr → Expr → Bool
  | .leaf l, .leaf m => l.same m
  | .unary f a, .unary g a' => f == g && a.same a'
  | .binary f a b, .binary g a' b' =>
    f == g && (a.same a' && b.same b' || f.commutative && (a.same b' && b.same a'))
  | .ternary f a b c, .ternary g a' b' c' => f == g && (a.same a' && b.same b' && c.same c')
  | .quaternary f a b c d, .quaternary g a' b' c' d' =>
    f == g && (a.same a' && b.same b' && c.same c' && d.same d')
  | _, _ => false

/-- The first of each class of same expressions, in order. -/
def distinct (es : List Expr) : List Expr :=
  es.foldl (fun kept e => if kept.any e.same then kept else kept ++ [e]) []

end Expr

end TradeRules
