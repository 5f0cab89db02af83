import TradeRules.Text.Quoted

/-!
# Weights

What is chosen at random is chosen by name, with a probability in proportion to a weight.  A table
lists the names with their weights, in the order in which they take up the range of a draw.  An
entry of weight zero is never chosen.

Five tables steer the generation of rules.  Entries of a table stand in the order in which they were
given.
-/

namespace TradeRules

/-- Names with their weights, in order. -/
abbrev WeightTable : Type :=
  List (String × Float)

namespace WeightTable

/-- A table with the weight of a name replaced, or the name added last. -/
def put (table : WeightTable) (name : String) (weight : Float) : WeightTable :=
  if table.any fun entry => entry.1 == name then
    table.map fun entry => if entry.1 == name then (name, weight) else entry
  else table ++ [(name, weight)]

/-- The table of a list of entries.  Of two entries of one name, the later weight counts in the
place of the first. -/
def ofList (entries : List (String × Float)) : WeightTable :=
  entries.foldl (fun table entry => put table entry.1 entry.2) []

/-- The names. -/
def names (table : WeightTable) : List String :=
  table.map Prod.fst

/-- The names in alphabetical order. -/
def sortedNames (table : WeightTable) : List String :=
  table.names.mergeSort fun a b => !decide (b < a)

/-- The table without some names. -/
def without (table : WeightTable) (names : List String) : WeightTable :=
  table.filter fun entry => !names.contains entry.1

/-- The entries that can be chosen. -/
def positive (table : WeightTable) : WeightTable :=
  table.filter fun entry => 0.0 < entry.2

/-- Whether no weight is negative. -/
def isNonNegative (table : WeightTable) : Bool :=
  table.all fun entry => !decide (entry.2 < 0.0)

/-- The sum of the weights, from the first on. -/
def total (table : WeightTable) : Float :=
  table.foldl (fun sum entry => sum + entry.2) 0.0

end WeightTable

/-- The weights of what rules are made of. -/
structure Weights where
  /-- INTEGER leaves. -/
  integerLeaves : WeightTable :=
    [("number", 5000), ("dayofyear", 0), ("month", 0), ("day", 1250), ("dayofweek", 1250),
      ("held", 1250), ("order", 1250)]
  /-- The kind of a number that may be of either kind. -/
  numericOperands : WeightTable := [("float", 5000), ("integer", 5000)]
  /-- The fields that FLOAT statistics read. -/
  floatQuotes : WeightTable := [("open", 2500), ("high", 2500), ("low", 2500), ("close", 2500)]
  /-- BOOLEAN operations. -/
  booleanOperations : WeightTable :=
    [("not", 1112), ("==", 1111), (">=", 1111), (">", 1111), ("<=", 1111), ("<", 1111),
      ("!=", 1111), ("and", 1111), ("or", 1111)]
  /-- FLOAT and INTEGER operations; one entry stands for a leaf. -/
  numericOperations : WeightTable :=
    [("terminal", 715), ("+", 714), ("-", 714), ("*", 714), ("/", 714), ("percent", 714),
      ("if", 714), ("lag", 714), ("min", 715), ("max", 715), ("sum", 714), ("sqrt", 714),
      ("abs", 714), ("avg", 715), ("sd", 357), ("bbl", 357), ("bbu", 357), ("ema", 357),
      ("rsi", 357), ("corr", 357)]

namespace Weights

/-- The tables with their names. -/
def tables (w : Weights) : List (String × WeightTable) :=
  [("integer_terminals", w.integerLeaves), ("numeric_operands", w.numericOperands),
    ("float_quotes", w.floatQuotes), ("boolean_operators", w.booleanOperations),
    ("numeric_expressions", w.numericOperations)]

/-- A table holds a negative weight. -/
structure NegativeWeight where
  /-- The name of the table. -/
  table : String
deriving DecidableEq, Repr

/-- The message of a negative weight. -/
def NegativeWeight.message (e : NegativeWeight) : String :=
  e.table ++ " weights must be non-negative"

/-- The weights, if none is negative. -/
def validate (w : Weights) : Except NegativeWeight Weights :=
  match w.tables.find? fun table => !table.2.isNonNegative with
  | some table => .error ⟨table.1⟩
  | none => .ok w

end Weights

end TradeRules
