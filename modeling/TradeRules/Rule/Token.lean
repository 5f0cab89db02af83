import TradeRules.Text.Blank
import TradeRules.Text.Digit
import TradeRules.Text.Quoted

/-!
# Tokens

The text of a rule is cut into tokens: numbers, quoted strings, names, and the signs of operations
and punctuation.  White space separates tokens and is dropped.  The first character decides which
token starts, and the token takes as many characters as it can.

`lexeme?` answers for one first character how many of the following characters belong to it, so
every step of `tokens` consumes at least that one, and the recursion is on what is left.  Positions
count characters from the start of the text.
-/

namespace TradeRules

/-- The four kinds of tokens. -/
inductive TokenKind where
  | number
  | string
  | name
  | sign
deriving DecidableEq, Repr

/-- The word for a kind of token. -/
def TokenKind.word : TokenKind → String
  | .number => "number"
  | .string => "string"
  | .name => "name"
  | .sign => "symbol"

/-- A token with the position of its first character. -/
structure Token where
  /-- What the token is. -/
  kind : TokenKind
  /-- Its characters. -/
  text : String
  /-- The position of its first character. -/
  position : Nat
deriving DecidableEq, Repr

/-! ## One token -/

namespace Lexer

/-- Whether a character can start a name. -/
def startsName (c : Char) : Bool :=
  c.isAlpha || c == '_'

/-- Whether a character can follow in a name. -/
def continuesName (c : Char) : Bool :=
  c.isAlphanum || c == '_'

/-- The number of characters at the start of a text that satisfy a test. -/
def run (p : Char → Bool) (cs : List Char) : Nat :=
  (cs.takeWhile p).length

/-- The length of the exponent of a number: a letter, perhaps a sign, and at least one digit.  A
text without one has an exponent of length zero. -/
def exponentLength : List Char → Nat
  | e :: c :: cs =>
    if e == 'e' || e == 'E' then
      if c == '+' || c == '-' then
        let n := run Text.isDigit cs
        if n = 0 then 0 else n + 2
      else
        let n := run Text.isDigit (c :: cs)
        if n = 0 then 0 else n + 1
    else 0
  | _ => 0

/-- The length of the fraction that may follow the whole part of a number: a point and any number
of digits. -/
def fractionLength : List Char → Nat
  | '.' :: cs => run Text.isDigit cs + 1
  | _ => 0

/-- The length of what follows the first digit of a number. -/
def numberLength (cs : List Char) : Nat :=
  let whole := run Text.isDigit cs
  let fraction := fractionLength (cs.drop whole)
  whole + fraction + exponentLength (cs.drop (whole + fraction))

/-- The length of what follows the point at the start of a number, if a digit does. -/
def pointLength? (cs : List Char) : Option Nat :=
  let digits := run Text.isDigit cs
  if digits = 0 then none else some (digits + exponentLength (cs.drop digits))

/-- The length of what follows the opening quote of a string, if it is closed. -/
def stringLength? (cs : List Char) : Option Nat :=
  let inside := run (· != '"') cs
  if inside < cs.length then some (inside + 1) else none

/-- Whether two characters make one sign. -/
def isPair (c d : Char) : Bool :=
  d == '=' && (c == '<' || c == '>' || c == '=' || c == '!')

/-- Whether a character is a sign by itself. -/
def isSign (c : Char) : Bool :=
  ['<', '>', '+', '-', '*', '/', '(', ')', '\x7b', '\x7d', ','].contains c

/-- The length of what follows the first character of a sign. -/
def signLength? (c : Char) (cs : List Char) : Option Nat :=
  if cs.head?.any (isPair c) then some 1
  else if isSign c then some 0
  else none

/-- What starts with the character `c` followed by `cs`: a token, or white space when no kind is
given, and how many characters of `cs` belong to it. -/
def lexeme? (c : Char) (cs : List Char) : Option (Option TokenKind × Nat) :=
  if Text.isBlank c then some (none, run Text.isBlank cs)
  else if Text.isDigit c then some (some .number, numberLength cs)
  else if c == '.' then (pointLength? cs).map fun n => (some .number, n)
  else if c == '"' then (stringLength? cs).map fun n => (some .string, n)
  else if startsName c then some (some .name, run continuesName cs)
  else (signLength? c cs).map fun n => (some .sign, n)

end Lexer

/-! ## All tokens -/

/-- A character with which no token starts, and its position. -/
structure StrayCharacter where
  /-- The character. -/
  character : Char
  /-- Its position. -/
  position : Nat
deriving DecidableEq, Repr

/-- The tokens of a text that starts at a position. -/
def Lexer.tokensFrom (position : Nat) : List Char → Except StrayCharacter (List Token)
  | [] => .ok []
  | c :: cs =>
    match lexeme? c cs with
    | none => .error ⟨c, position⟩
    | some (kind?, n) => do
      let rest ← tokensFrom (position + (n + 1)) (cs.drop n)
      match kind? with
      | some kind => return ⟨kind, String.ofList (c :: cs.take n), position⟩ :: rest
      | none => return rest
termination_by cs => cs.length
decreasing_by
  simp only [List.length_drop, List.length_cons]
  omega

/-- The tokens of a text. -/
def tokens (text : String) : Except StrayCharacter (List Token) :=
  Lexer.tokensFrom 0 text.toList

/-- The message about a stray character. -/
def StrayCharacter.message (s : StrayCharacter) : String :=
  "Unexpected character " ++ Text.quoted s.character.toString ++ " at position "
    ++ toString s.position

end TradeRules
