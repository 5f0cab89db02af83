/-!
# White space

The characters that separate tokens and that are dropped around a symbol: the ASCII controls from
tab to carriage return and from the file separator to the unit separator, and the spaces and line
ends of every script.
-/

namespace TradeRules

namespace Text

/-- The ranges of white space code points, both ends included. -/
def blankRanges : List (Nat × Nat) := [
  (0x9, 0xd), (0x1c, 0x20), (0x85, 0x85), (0xa0, 0xa0), (0x1680, 0x1680), (0x2000, 0x200a),
  (0x2028, 0x2029), (0x202f, 0x202f), (0x205f, 0x205f), (0x3000, 0x3000)]

/-- Whether a character is white space. -/
def isBlank (c : Char) : Bool :=
  blankRanges.any fun range => range.1 ≤ c.toNat && c.toNat ≤ range.2

/-- A text without the white space at both ends. -/
def strip (cs : List Char) : List Char :=
  ((cs.dropWhile isBlank).reverse.dropWhile isBlank).reverse

example : strip [' ', 'a', ' ', 'b', '\n'] = ['a', ' ', 'b'] := by decide

end Text

end TradeRules
