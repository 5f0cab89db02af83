import TradeRules.Rule.Construction

/-!
# Sites of an expression

A site is a node of a tree, and its path says how to reach it: the indices of the operands to take,
from the root on.  The root has the empty path.  `Expr.sites` lists all sites with their paths, a
node before its operands.  `Expr.at?` finds a site and `Expr.replace?` puts another tree in its
place.  A path that leaves the tree has no site.
-/

namespace TradeRules

/-- The operand indices that lead from the root to a site. -/
abbrev Path :=
  List Nat

namespace Expr

/-- The node at a path. -/
def at? (e : Expr) : Path → Option Expr
  | [] => some e
  | i :: rest => e.operands[i]?.bind fun a => a.at? rest

/-- The tree with the node at a path replaced. -/
def replace? (e : Expr) (replacement : Expr) : Path → Option Expr
  | [] => some replacement
  | i :: rest => do
    let a ← e.operands[i]?
    let b ← a.replace? replacement rest
    return e.setOperand i b

/-- A path entered from the operand at an index. -/
def inOperand (i : Nat) (sites : List (Path × Expr)) : List (Path × Expr) :=
  sites.map fun site => (i :: site.1, site.2)

/-- All paths with their nodes, a node before its operands. -/
def sites : Expr → List (Path × Expr)
  | .leaf l => [([], .leaf l)]
  | .unary op a => ([], .unary op a) :: inOperand 0 a.sites
  | .binary op a b => ([], .binary op a b) :: (inOperand 0 a.sites ++ inOperand 1 b.sites)
  | .ternary op a b c =>
    ([], .ternary op a b c) :: (inOperand 0 a.sites ++ inOperand 1 b.sites ++ inOperand 2 c.sites)
  | .quaternary op a b c d =>
    ([], .quaternary op a b c d)
      :: (inOperand 0 a.sites ++ inOperand 1 b.sites ++ inOperand 2 c.sites ++ inOperand 3 d.sites)

/-- The sites of a kind.  It fails when some node has no kind. -/
def sitesOf (k : Kind) (e : Expr) : Except BuildError (List (Path × Expr)) :=
  e.sites.filterM fun site => site.2.declaredKind.map (· == k)

/-- What the root adds to the number of nodes of a kind. -/
def rootCount (k : Kind) (e : Expr) : Except BuildError Nat := do
  return if (← e.declaredKind) = k then 1 else 0

/-- The number of nodes of a kind.  It fails when some node has no kind. -/
def countOf (k : Kind) : Expr → Except BuildError Nat
  | .leaf l => rootCount k (.leaf l)
  | .unary op a => do return (← rootCount k (.unary op a)) + (← a.countOf k)
  | .binary op a b => do
    return (← rootCount k (.binary op a b)) + ((← a.countOf k) + (← b.countOf k))
  | .ternary op a b c => do
    return (← rootCount k (.ternary op a b c))
      + ((← a.countOf k) + (← b.countOf k) + (← c.countOf k))
  | .quaternary op a b c d => do
    return (← rootCount k (.quaternary op a b c d))
      + ((← a.countOf k) + (← b.countOf k) + (← c.countOf k) + (← d.countOf k))

/-- The path that signed indices describe: a negative index counts back from the last operand. -/
def locate? (e : Expr) : List Int → Option Path
  | [] => some []
  | i :: rest => do
    let j := if i < 0 then i + e.operands.length else i
    if j < 0 then none
    else
      let a ← e.operands[j.toNat]?
      let path ← a.locate? rest
      return j.toNat :: path

end Expr

end TradeRules
