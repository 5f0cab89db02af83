import TradeRules.Number.Form
import TradeRules.Text.Quoted

/-!
# JSON text

What the program saves is a JSON object of texts and numbers, one field on a line, in ASCII only.
In a text the double quote and the backslash get a backslash, five control characters their letters,
and everything else that is not printable ASCII its UTF-16 units in four hexadecimal digits.
-/

namespace TradeRules

namespace Text

/-- The UTF-16 units of a character. -/
def units16 (c : Char) : List Nat :=
  if c.toNat < 0x10000 then [c.toNat]
  else
    let n := c.toNat - 0x10000
    [0xd800 + n / 0x400, 0xdc00 + n % 0x400]

/-- A unit as an escape of four hexadecimal digits. -/
def unitEscape (n : Nat) : List Char :=
  '\\' :: 'u' :: hexadecimal 4 n

/-- A character as it stands in a JSON text. -/
def escapeJson (c : Char) : List Char :=
  if c = '"' || c = '\\' then ['\\', c]
  else if c = '\n' then ['\\', 'n']
  else if c = '\r' then ['\\', 'r']
  else if c = '\t' then ['\\', 't']
  else if c.toNat = 8 then ['\\', 'b']
  else if c.toNat = 12 then ['\\', 'f']
  else if 0x20 ≤ c.toNat && c.toNat < 0x7f then [c]
  else (units16 c).flatMap unitEscape

/-- A text between double quotes. -/
def escaped (text : String) : String :=
  String.ofList ('"' :: text.toList.flatMap escapeJson ++ ['"'])

end Text

/-- A value of a JSON field. -/
inductive JsonValue where
  | null
  | whole (n : Int)
  | real (x : Float)
  | text (s : String)

namespace JsonValue

/-- The text of a value.  The numbers that are not finite are written as words. -/
def write : JsonValue → String
  | .null => "null"
  | .whole n => toString n
  | .real x =>
    if x.isNaN then "NaN"
    else if x.isInf then (if x < 0.0 then "-Infinity" else "Infinity")
    else Double.text x
  | .text s => Text.escaped s

/-- The text of an object with the given fields, in their order. -/
def writeObject (fields : List (String × JsonValue)) : String :=
  let lines := fields.map fun field => "  " ++ Text.escaped field.1 ++ ": " ++ field.2.write
  "\x7b\n" ++ ",\n".intercalate lines ++ "\n\x7d"

end JsonValue

end TradeRules
