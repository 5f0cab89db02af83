import TradeRules.Breeding.Strategy
import TradeRules.Number.Form

/-!
# Pools of strategies

A pool holds scored strategies by their value, at most one of each value: strategies of exactly the
same value are taken to trade alike.  A strategy put on a value that the pool holds takes the place
of the one before it.  `Pool.ranked` lists the strategies from the weakest to the fittest.

Values are compared as doubles: the two zeros are one value, and NaN is no value at all, so that a
strategy with it is never found again.
-/

namespace TradeRules

/-- Scored strategies by value, oldest first. -/
structure Pool where
  /-- The number of strategies from which on the pool is full. -/
  maxSize : Int
  /-- The values with their strategies. -/
  entries : List (Float × Strategy) := []

/-- Why a pool refuses to change. -/
inductive PoolError where
  /-- A strategy has no score. -/
  | unscored
  /-- No strategy has the value. -/
  | absent (value : Float)
deriving DecidableEq

/-- The message of a pool error. -/
def PoolError.message : PoolError → String
  | .unscored => "Only scored individuals can join a population"
  | .absent value => Double.text value

namespace Pool

/-- The number of strategies. -/
def size (p : Pool) : Nat :=
  p.entries.length

/-- Whether a pool has no room for another value. -/
def isFull (p : Pool) : Bool :=
  p.maxSize ≤ p.size

/-- The values, oldest first. -/
def values (p : Pool) : List Float :=
  p.entries.map Prod.fst

/-- Whether a pool holds a value. -/
def contains (p : Pool) (value : Float) : Bool :=
  p.entries.any fun entry => entry.1 == value

/-- The strategy with a value. -/
def get? (p : Pool) (value : Float) : Option Strategy :=
  (p.entries.find? fun entry => entry.1 == value).map Prod.snd

/-- The pool with a strategy put on a value. -/
def insert (p : Pool) (value : Float) (s : Strategy) : Pool :=
  if p.contains value then
    { p with entries := p.entries.map fun entry =>
        if entry.1 == value then (entry.1, s) else entry }
  else { p with entries := p.entries ++ [(value, s)] }

/-- The pool with a scored strategy. -/
def put (p : Pool) (s : Strategy) : Except PoolError Pool :=
  match s.value with
  | some value => .ok (p.insert value s)
  | none => .error .unscored

/-- The pool without a value. -/
def erase (p : Pool) (value : Float) : Pool :=
  { p with entries := p.entries.filter fun entry => !(entry.1 == value) }

/-- The pool without a value that it holds. -/
def remove (p : Pool) (value : Float) : Except PoolError Pool :=
  if p.contains value then .ok (p.erase value) else .error (.absent value)

/-! ## Order -/

/-- An entry put behind the last one of an ordered list that it does not come before.  The list
runs backwards. -/
def insertBackwards (entry : Float × Strategy) : List (Float × Strategy) → List (Float × Strategy)
  | [] => [entry]
  | last :: rest =>
    if entry.1 < last.1 then last :: insertBackwards entry rest else entry :: last :: rest

/-- The entries from the weakest to the fittest. -/
def sorted (p : Pool) : List (Float × Strategy) :=
  (p.entries.foldl (fun ordered entry => insertBackwards entry ordered) []).reverse

/-- The strategies from the weakest to the fittest. -/
def ranked (p : Pool) : List Strategy :=
  p.sorted.map Prod.snd

/-- The entry that no other comes before, in the given sense; of several the oldest. -/
def foremost (before : Float → Float → Bool) :
    List (Float × Strategy) → Option (Float × Strategy)
  | [] => none
  | first :: rest =>
    some (rest.foldl (fun best entry => if before entry.1 best.1 then entry else best) first)

/-- The least value. -/
def weakestValue (p : Pool) : Option Float :=
  (foremost (fun x y => x < y) p.entries).map Prod.fst

/-- The strategy of the greatest value. -/
def fittest (p : Pool) : Option Strategy :=
  (foremost (fun x y => y < x) p.entries).map Prod.snd

/-- The sum of the values, oldest first. -/
def total (p : Pool) : Float :=
  p.values.foldl (fun sum value => sum + value) 0.0

/-- The first strategy at which a number is used up by the values of the strategies up to it. -/
def reaching : Float → List Strategy → Option Strategy
  | _, [] => none
  | x, s :: rest =>
    let left := x - s.value.getD 0.0
    if left ≤ 0.0 then some s else reaching left rest

/-- The strategy that a number selects, in proportion to the values: that at which the number is
used up, from the weakest on, or else the fittest. -/
def select (p : Pool) (x : Float) : Option Strategy :=
  (reaching x p.ranked).or p.fittest

end Pool

end TradeRules
