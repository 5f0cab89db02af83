import TradeRules.Text.Blank

/-!
# Symbols

A symbol is the code of a stock: a letter or digit followed by up to eleven letters, digits, points
and dashes.  `Symbol.parse` reads one from text, without regard to case and to white space around
it.  The constructor takes any code, for the callers that have one already.
-/

namespace TradeRules

/-- The code of a stock. -/
structure Symbol where
  /-- The code. -/
  code : String
deriving DecidableEq, Repr

namespace Symbol

/-- Why something is not a symbol. -/
inductive Error where
  /-- It is no text but a value of this type. -/
  | notText (type : String)
  | malformed (text : String)
deriving DecidableEq, Repr

/-- The message of a symbol error. -/
def Error.message : Error → String
  | .notText type => "Symbol must be text, got " ++ type
  | .malformed text => "Malformed symbol: '" ++ text ++ "'"

/-- Whether one symbol comes before another. -/
def before (a b : Symbol) : Bool :=
  a.code < b.code

/-- The letters outside ASCII whose capitals are within, with these capitals. -/
def foreignCapitals : List (Char × List Char) := [
  ('ß', ['S', 'S']), ('ı', ['I']), ('ſ', ['S']), ('ﬀ', ['F', 'F']), ('ﬁ', ['F', 'I']),
  ('ﬂ', ['F', 'L']), ('ﬃ', ['F', 'F', 'I']), ('ﬄ', ['F', 'F', 'L']), ('ﬅ', ['S', 'T']),
  ('ﬆ', ['S', 'T'])]

/-- The capitals of a character.  Other letters outside ASCII stay as they are, since neither they
nor their capitals can stand in a code. -/
def capitals (c : Char) : List Char :=
  if c.toNat < 0x80 then [c.toUpper] else (foreignCapitals.lookup c).getD [c]

/-- Whether a character can start a code. -/
def canStart (c : Char) : Bool :=
  'A' ≤ c && c ≤ 'Z' || '0' ≤ c && c ≤ '9'

/-- Whether a character can follow in a code. -/
def canFollow (c : Char) : Bool :=
  canStart c || c == '.' || c == '-'

/-- The greatest length of a code. -/
def maxLength : Nat :=
  12

/-- Whether characters form a code. -/
def isCode : List Char → Bool
  | [] => false
  | c :: cs => canStart c && cs.all canFollow && cs.length < maxLength

/-- The symbol that a text means. -/
def parse (text : String) : Except Error Symbol :=
  let cs := (Text.strip text.toList).flatMap capitals
  if isCode cs then .ok ⟨String.ofList cs⟩ else .error (.malformed text)

end Symbol

end TradeRules
