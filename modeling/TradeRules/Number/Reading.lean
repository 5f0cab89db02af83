import TradeRules.Number.Decimal
import TradeRules.Text.Blank
import TradeRules.Text.Digit

/-!
# Reading numbers

Numbers as they are written in rules, in data files and on the command line.

A decimal is written as digits, perhaps a point with more digits, and perhaps a power of ten after
the letter `e`.  Outside of rules a number may also have white space around it, a sign, and single
underscores between digits, and infinity and NaN have names.
-/

namespace TradeRules

/-! ## Decimals -/

namespace Decimal

/-- Whether a character announces a power of ten. -/
def isMark (c : Char) : Bool :=
  c == 'e' || c == 'E'

/-- The digits and the point of a written decimal. -/
def mantissaOf (cs : List Char) : List Char :=
  cs.takeWhile (! isMark ·)

/-- The power of ten of a written decimal with its sign, empty when none is written. -/
def powerOf (cs : List Char) : List Char :=
  (cs.dropWhile (! isMark ·)).drop 1

/-- The number that a written decimal means. -/
def ofChars (cs : List Char) : Decimal :=
  let mantissa := mantissaOf cs
  let power := powerOf cs
  let fraction := (mantissa.dropWhile (· != '.')).drop 1
  let magnitude := Text.numberOfDigits power
  let exponent := if power.head? == some '-' then -(magnitude : Int) else magnitude
  { digits := Text.numberOfDigits mantissa, exponent := exponent - fraction.length }

/-- Whether characters are digits with a sign that may stand before them. -/
def isSignedDigits (cs : List Char) : Bool :=
  let digits := if cs.head?.any fun c => c == '+' || c == '-' then cs.drop 1 else cs
  !digits.isEmpty && digits.all Text.isDigit

/-- Whether characters are a written decimal without sign. -/
def isWritten (cs : List Char) : Bool :=
  let mantissa := mantissaOf cs
  let whole := mantissa.takeWhile (· != '.')
  let fraction := (mantissa.dropWhile (· != '.')).drop 1
  !(whole ++ fraction).isEmpty && (whole ++ fraction).all Text.isDigit
    && (!cs.any isMark || isSignedDigits (powerOf cs))

end Decimal

/-! ## Numbers outside of rules -/

namespace Reading

/-- Characters without the single underscores between digits; none when an underscore stands
elsewhere. -/
def dropUnderscores : List Char → Option (List Char)
  | [] => some []
  | '_' :: _ => none
  | c :: '_' :: d :: rest =>
    if Text.isDigit c && Text.isDigit d then (dropUnderscores (d :: rest)).map (c :: ·) else none
  | c :: rest => (dropUnderscores rest).map (c :: ·)

/-- The sign of a number, and the rest. -/
def splitSign : List Char → Bool × List Char
  | '-' :: cs => (true, cs)
  | '+' :: cs => (false, cs)
  | cs => (false, cs)

/-- The double that a text means. -/
def double? (text : String) : Option Float := do
  let cs ← dropUnderscores (Text.strip text.toList)
  let (negative, cs) := splitSign cs
  let word := String.ofList (cs.map Char.toLower)
  let magnitude ←
    if word = "inf" ∨ word = "infinity" then some (1.0 / 0.0)
    else if word = "nan" then some (0.0 / 0.0)
    else if Decimal.isWritten cs then some (Decimal.ofChars cs).toDouble
    else none
  return if negative then -magnitude else magnitude

/-- The whole number that a text means. -/
def whole? (text : String) : Option Int := do
  let cs ← dropUnderscores (Text.strip text.toList)
  let (negative, cs) := splitSign cs
  if !cs.isEmpty && cs.all Text.isDigit then some (Double.signed negative (Text.numberOfDigits cs))
  else none

end Reading

end TradeRules
