import TradeRules.Breeding.Generator

/-!
# Mutation and recombination

A mutation changes a tree at one site, which is chosen at random unless it is given.

*Insertion* puts a new operation in the place of the site and the old tree of the site among its
operands.  *Deletion* puts a leaf in the place of the site.  *Modification* makes a new tree after
the old one.  Recombination takes a tree of the same kind from another tree.  Nothing changes away
from the site, and the kind at the site stays the same.

An insertion tries a number of operations until one has an operand of the kind of the site.  Where
none has, or where a deletion would change nothing, there is a modification instead.
-/

namespace TradeRules

namespace Generator

/-! ## Sites -/

/-- A random site among some, if there are any. -/
def pickSite : List (Path × Expr) → Draw (Option (Path × Expr))
  | [] => return none
  | site :: rest => do return some (← Draw.pick site rest)

/-- A random site of a tree. -/
def site (e : Expr) : Draw (Path × Expr) := do
  match ← pickSite e.sites with
  | some site => return site
  | none => throw .noSite

/-- A random site of a tree with the given kind, if there is one. -/
def siteOf (kind : Kind) (e : Expr) : Draw (Option (Path × Expr)) := do
  pickSite (← Draw.built (e.sitesOf kind))

/-- The site at a path, or a random one when no path is given. -/
def siteAt (e : Expr) : Option Path → Draw (Path × Expr)
  | none => site e
  | some path =>
    match e.at? path with
    | some a => return (path, a)
    | none => throw .noSite

/-- The tree with the site at a path replaced. -/
def splice (e : Expr) (path : Path) (replacement : Expr) : Expr :=
  (e.replace? replacement path).getD e

/-! ## Mutations of a site -/

/-- The place of the smoothing constant among the operands of an exponential average. -/
def smoothingIndex : Nat :=
  3

/-- Whether a path leads to a number that is the smoothing constant of an exponential average. -/
def isSmoothing (e : Expr) (path : Path) : Bool :=
  path.getLast? == some smoothingIndex
    && match e.at? path.dropLast, e.at? path with
      | some (.quaternary .ema ..), some (.number _) => true
      | _, _ => false

/-- The tree with a site made anew after what it was. -/
def modifyAt (g : Generator) (e : Expr) (path : Path) (a : Expr) : Draw Expr := do
  if isSmoothing e path then return splice e path (← smoothing)
  else
    let kind ← Draw.built a.declaredKind
    return splice e path (← g.tree kind 1 (some a))

/-- The tree with a leaf in the place of a site. -/
def deleteAt (g : Generator) (e : Expr) (path : Path) (a : Expr) : Draw Expr := do
  if path.isEmpty || a.isLeaf then g.modifyAt e path a
  else return splice e path (← g.leaf (← Draw.built a.declaredKind))

/-- The indices of the operands of a kind. -/
def slots (kind : Kind) (e : Expr) : Draw (List Nat) := do
  let kinds ← Draw.built (e.operands.mapM Expr.declaredKind)
  return (List.range kinds.length).filter fun i => kinds[i]? == some kind

/-- The number of operations an insertion tries. -/
def insertionAttempts : Nat :=
  100

/-- A new operation around a tree of the given kind, after some attempts, if one has a place for
it. -/
def wrap (g : Generator) (a : Expr) (kind : Kind) (level : Int) : Nat → Draw (Option Expr)
  | 0 => return none
  | attempts + 1 => do
    let wrapper ← g.branch kind level none
    match ← slots kind wrapper with
    | [] => g.wrap a kind level attempts
    | slot :: rest => return some (wrapper.setOperand (← Draw.pick slot rest) a)

/-- The tree with a new operation around a site. -/
def insertAt (g : Generator) (e : Expr) (path : Path) (a : Expr) : Draw Expr := do
  let kind ← Draw.built a.declaredKind
  match ← g.wrap a kind ((path.length : Int) + 1) insertionAttempts with
  | some wrapped => return splice e path wrapped
  | none => g.modifyAt e path a

/-! ## Mutations of a tree -/

/-- The tree with a new operation around the site at a path, or around a random one. -/
def insertion (g : Generator) (e : Expr) (path : Option Path) : Draw Expr := do
  let (path, a) ← siteAt e path
  g.insertAt e path a

/-- The tree with a leaf in the place of the site at a path, or of a random one. -/
def deletion (g : Generator) (e : Expr) (path : Option Path) : Draw Expr := do
  let (path, a) ← siteAt e path
  g.deleteAt e path a

/-- The tree with the site at a path, or a random one, made anew. -/
def modification (g : Generator) (e : Expr) (path : Option Path) : Draw Expr := do
  let (path, a) ← siteAt e path
  g.modifyAt e path a

/-- A random mutation. -/
def mutateOnce (g : Generator) (e : Expr) : Draw Expr := do
  match ← Draw.choose g.settings.mutationWeights with
  | "insertion" => g.insertion e none
  | "deletion" => g.deletion e none
  | _ => g.modification e none

/-- Mutations that follow each other while the dice say so, the first with the given chance in
percent, and at most a number of them. -/
def mutateWithin (g : Generator) : Nat → Int → Expr → Draw Expr
  | 0, _, _ => throw .endless
  | rounds + 1, percent, e => do
    if ((← Draw.below 100 : Nat) : Int) < percent then
      g.mutateWithin rounds g.settings.extraMutationPercent (← g.mutateOnce e)
    else return e

/-- The number of mutations in a row after which no end is in sight. -/
def mutationLimit : Nat :=
  1000000

/-- The tree after random mutations, the first with the given chance in percent. -/
def mutate (g : Generator) (percent : Int) (e : Expr) : Draw Expr :=
  g.mutateWithin mutationLimit percent e

/-! ## Recombination -/

/-- The tree with a random site replaced by a random site of the same kind in a source, if there is
one. -/
def recombine (e source : Expr) : Draw Expr := do
  let (path, a) ← site e
  match ← siteOf (← Draw.built a.declaredKind) source with
  | some (_, b) => return splice e path b
  | none => return e

end Generator

end TradeRules
