/-!
# Kinds of values

Every expression has one of five kinds.  Three are kinds of values: truth values, whole numbers and
prices.  The other two are kinds of quotes.  An expression of quote kind names a column of the
market data, and the statistics take it as their first argument.

The fields of a day's quote are the four prices and the volume, the only whole one.

A truth value travels as a number.  Any number from `Truth.level` on counts as true.
-/

namespace TradeRules

/-- The kind of an expression. -/
inductive Kind where
  | boolean
  | integer
  | float
  /-- A column of whole numbers. -/
  | integerQuote
  /-- A column of prices. -/
  | floatQuote
deriving DecidableEq, Repr

/-- The kinds that a variable can have. -/
inductive ValueKind where
  | boolean
  | integer
  | float
deriving DecidableEq, Repr

namespace Kind

/-- All kinds. -/
def all : List Kind :=
  [.boolean, .integer, .float, .integerQuote, .floatQuote]

/-- The name of a kind in messages. -/
def name : Kind → String
  | .boolean => "BOOLEAN"
  | .integer => "INTEGER"
  | .float => "FLOAT"
  | .integerQuote => "INTEGER_QUOTE"
  | .floatQuote => "FLOAT_QUOTE"

/-- The kind with a given name. -/
def ofName? (text : String) : Option Kind :=
  all.find? fun k => k.name == text

/-- Whether a kind is one of plain numbers. -/
def isNumeric : Kind → Bool
  | .integer | .float => true
  | _ => false

/-- Whether a kind is one of quotes. -/
def isQuote : Kind → Bool
  | .integerQuote | .floatQuote => true
  | _ => false

/-- The kind of number a statistic of a quote yields; the other kinds have none. -/
def ofQuote? : Kind → Option Kind
  | .integerQuote => some .integer
  | .floatQuote => some .float
  | _ => none

/-- A kind as the kind of a variable, unless it is one of quotes. -/
def toValueKind? : Kind → Option ValueKind
  | .boolean => some .boolean
  | .integer => some .integer
  | .float => some .float
  | _ => none

end Kind

/-- The kind of a variable as the kind of an expression. -/
def ValueKind.kind : ValueKind → Kind
  | .boolean => .boolean
  | .integer => .integer
  | .float => .float

/-- A field of a day's quote. -/
inductive Field where
  | opening
  | high
  | low
  | closing
  | volume
deriving DecidableEq, Repr

namespace Field

/-- All fields, in the order of a quote. -/
def all : List Field :=
  [.opening, .high, .low, .closing, .volume]

/-- The word for a field in rules and in column headings. -/
def word : Field → String
  | .opening => "open"
  | .high => "high"
  | .low => "low"
  | .closing => "close"
  | .volume => "volume"

/-- The field with a given word. -/
def ofWord? (text : String) : Option Field :=
  all.find? fun f => f.word == text

/-- The kind of a field as an expression. -/
def kind : Field → Kind
  | .volume => .integerQuote
  | _ => .floatQuote

end Field

namespace Truth

/-- The least number that counts as true. -/
def level : Float :=
  0.1

/-- A truth value as a number. -/
def toNumber (b : Bool) : Float :=
  if b then 1.0 else 0.0

/-- Whether a number counts as true. -/
def holds (x : Float) : Bool :=
  level ≤ x

end Truth

end TradeRules
