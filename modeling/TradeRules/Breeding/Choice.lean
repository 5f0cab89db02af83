import TradeRules.Breeding.Draws
import TradeRules.Breeding.Strategy
import TradeRules.Breeding.Weights

/-!
# Random choices

A computation in `Draw` takes numbers from a stream and may fail.  What it has taken stays taken
when it fails.  Every choice is made here: among the first natural numbers, among the members of a
list that is not empty, and among the names of a table of weights.
-/

namespace TradeRules

/-- Why breeding fails. -/
inductive BreedError where
  /-- None of these names has a positive weight. -/
  | noChoice (names : List String)
  /-- A table has no entries. -/
  | emptyTable
  /-- The weights of a table add up to nothing. -/
  | noTotal
  /-- The weights of a table add up to no finite number. -/
  | infiniteTotal
  /-- There is no symbol for a correlation. -/
  | noPartner
  /-- A numeric operation of this name does not exist. -/
  | unknownOperation (name : String)
  /-- A comparison or a leaf of this name does not exist. -/
  | unknownName (name : String)
  /-- A path leaves the tree. -/
  | noSite
  /-- Mutations follow each other without an end in sight. -/
  | endless
  | build (e : BuildError)
  | strategy (e : StrategyError)
deriving DecidableEq

/-- The message of a breeding error. -/
def BreedError.message : BreedError → String
  | .noChoice names => "No choice has a positive weight in " ++ Text.quotedList names
  | .emptyTable => "list index out of range"
  | .noTotal => "Total of weights must be greater than zero"
  | .infiniteTotal => "Total of weights must be finite"
  | .noPartner => "Cannot choose from an empty sequence"
  | .unknownOperation name => "Unknown expression: " ++ name
  | .unknownName name => Text.quoted name
  | .noSite => "tuple index out of range"
  | .endless => "too many mutations in a row"
  | .build e => e.message
  | .strategy e => e.message

/-- A computation that takes random numbers and may fail. -/
abbrev Draw : Type → Type :=
  ExceptT BreedError (StateM Draws)

namespace Draw

/-- The next random number. -/
def unit : Draw Float :=
  fun d => (.ok d.next.1, d.next.2)

/-- A result of building, which takes no random number. -/
def built {α : Type} (r : Except BuildError α) : Draw α :=
  ExceptT.mk (pure (r.mapError .build))

/-- A natural number below `n`, each with the same chance. -/
def below (n : Nat) : Draw Nat := do
  let x ← unit
  return (Double.truncate (x * Double.ofNat n)).toNat

/-- A member of a list that is not empty, each with the same chance. -/
def pick {α : Type} (first : α) (rest : List α) : Draw α := do
  let i ← below (rest.length + 1)
  return ((first :: rest)[i]?).getD (rest.getLastD first)

/-- The name at which the running sum of the weights passes a threshold, or the last name.  Where no weight
is negative the sums rise, and a search by halves finds the same name. -/
def passing (threshold sum : Float) : String → WeightTable → String
  | name, [] => name
  | _, (name, weight) :: rest =>
    let sum := sum + weight
    if threshold < sum then name else passing threshold sum name rest

/-- A name of a table, with a chance in proportion to its weight.  The sum of the weights has to be
positive and finite, which is looked at before a number is drawn. -/
def weighted (table : WeightTable) : Draw String := do
  match table with
  | [] => throw .emptyTable
  | (name, _) :: _ =>
    if table.total ≤ 0.0 then throw .noTotal
    else if !table.total.isFinite then throw .infiniteTotal
    else do
      let x ← unit
      return passing (x * table.total) 0.0 name table

/-- A name of positive weight, with a chance in proportion to its weight. -/
def choose (table : WeightTable) : Draw String :=
  if table.positive.isEmpty then throw (.noChoice table.sortedNames)
  else weighted table.positive

end Draw

end TradeRules
