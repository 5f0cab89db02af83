import TradeRules.Rule.Equality

/-!
# Expressions as keys of a table

A table looks an expression up by its hash, and compares trees only among the keys that have the
same hash.  The hash of a tree is combined from the head of the tree and the hashes of its operands,
which are put in ascending order where the operands may be exchanged.

How they are combined differs from one run of the program to the next, so it is left open
(`Hashing`).  It is only asked that leaves that are the same, as the two zeros are, have the same hash.
-/

namespace TradeRules

/-- How nodes are hashed. -/
structure Hashing where
  /-- The hash of a node with a given head, from the hashes of its operands. -/
  combine : Head → List Int → Int
  /-- Leaves that are the same have the same hash. -/
  combine_leaf : ∀ s t : Leaf, s.same t = true → combine (.leaf s) [] = combine (.leaf t) []

namespace Expr

/-- The hash of an expression. -/
def hashCode (hashing : Hashing) : Expr → Int
  | .leaf l => hashing.combine (.leaf l) []
  | .unary op a => hashing.combine (.unary op) [a.hashCode hashing]
  | .binary op a b =>
    let hashes := [a.hashCode hashing, b.hashCode hashing]
    hashing.combine (.binary op) (if op.commutative then hashes.mergeSort else hashes)
  | .ternary op a b c =>
    hashing.combine (.ternary op) [a.hashCode hashing, b.hashCode hashing, c.hashCode hashing]
  | .quaternary op a b c d =>
    hashing.combine (.quaternary op)
      [a.hashCode hashing, b.hashCode hashing, c.hashCode hashing, d.hashCode hashing]

/-- The keys of a table in which expressions are entered one after another. -/
def keys (hashing : Hashing) (es : List Expr) : List Expr :=
  es.foldl (fun kept e =>
    if kept.any fun key => key.hashCode hashing == e.hashCode hashing && key.same e then kept
    else kept ++ [e]) []

end Expr

end TradeRules
