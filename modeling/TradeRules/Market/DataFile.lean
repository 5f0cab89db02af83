import TradeRules.Market.Record

/-!
# Data files

Quotes are kept in text files of comma-separated fields.  The first line names the columns, and each
further line is one trading day of one symbol.  Column names are read without regard to case and to
white space around them.

*Fields.*  A field that starts with a quote ends at the next quote, and two quotes inside stand for
one.  Lines end with a line feed, a carriage return, or both.  Blank lines are passed over, and so
are blanks at the start of a line.

*Columns.*  A line that is too short leaves its last columns empty.  When the first line after the
headings has more fields than there are headings, its first fields are labels that no heading names,
and every line has as many labels.  A line that is longer still makes the file unreadable.

*Types.*  A column has one type, that of all its fields.  It holds whole numbers, or numbers, where
an empty field is NaN, or truth values, or else text.  A number is read digit by digit from its
first seventeen digits.
-/

namespace TradeRules

namespace DataFile

/-! ## Lines and fields -/

/-- Where a reader of characters stands. -/
inductive Mode where
  | lineStart
  /-- After a carriage return that has ended a line. -/
  | afterReturn
  | fieldStart
  | plain
  | quoted
  /-- After a quote inside a quoted field. -/
  | quoteInQuoted
deriving DecidableEq

/-- What has been read. -/
structure Reader where
  /-- Where the reader stands. -/
  mode : Mode := .lineStart
  /-- The characters of the current field, last first. -/
  field : List Char := []
  /-- The finished fields of the current line, last first. -/
  row : List String := []
  /-- The finished lines with their numbers, last first. -/
  rows : List (Nat × List String) := []
  /-- The number of lines finished, blank ones included. -/
  count : Nat := 0

namespace Reader

/-- One more character in the field. -/
def push (r : Reader) (mode : Mode) (c : Char) : Reader :=
  { r with mode, field := c :: r.field }

/-- The field finished. -/
def endField (r : Reader) : Reader :=
  { r with mode := .fieldStart, field := [], row := String.ofList r.field.reverse :: r.row }

/-- The line finished with its last field. -/
def endLine (r : Reader) (mode : Mode) : Reader :=
  let r := r.endField
  let number := r.count + 1
  { r with mode, row := [], rows := (number, r.row.reverse) :: r.rows, count := number }

/-- A blank line finished. -/
def endBlank (r : Reader) (mode : Mode) : Reader :=
  { r with mode, count := r.count + 1 }

/-- A character outside of quotes: a separator, a line end, or part of the field. -/
def outside (r : Reader) (c : Char) : Reader :=
  if c = ',' then r.endField
  else if c = '\n' then r.endLine .lineStart
  else if c = '\r' then r.endLine .afterReturn
  else r.push .plain c

/-- A character at the start of a field. -/
def start (r : Reader) (c : Char) : Reader :=
  if c = '"' then { r with mode := .quoted } else r.outside c

/-- A character at the start of a line. -/
def startLine (r : Reader) (c : Char) : Reader :=
  if c = '\n' then r.endBlank .lineStart
  else if c = '\r' then r.endBlank .afterReturn
  else if c = ' ' || c = '\t' then { r with mode := .lineStart }
  else r.start c

/-- The next character. -/
def step (r : Reader) (c : Char) : Reader :=
  match r.mode with
  | .lineStart => r.startLine c
  | .afterReturn => if c = '\n' then { r with mode := .lineStart } else r.startLine c
  | .fieldStart => r.start c
  | .plain => r.outside c
  | .quoted => if c = '"' then { r with mode := .quoteInQuoted } else r.push .quoted c
  | .quoteInQuoted => if c = '"' then r.push .quoted c else r.outside c

/-- All lines, the last one finished by the end of the text, or the number of lines before a quote
that never ends. -/
def finish (r : Reader) : Except Nat (List (Nat × List String)) :=
  match r.mode with
  | .lineStart | .afterReturn => .ok r.rows.reverse
  | .quoted => .error r.count
  | _ => .ok (r.endLine .lineStart).rows.reverse

end Reader

/-- Why a file is not a table. -/
inductive TableError where
  /-- No line has column names. -/
  | noColumns
  /-- A line has more fields than the lines before it. -/
  | longLine (width number fields : Nat)
  /-- A quote never ends, after this number of lines. -/
  | openQuote (lines : Nat)
deriving DecidableEq, Repr

/-- The message of a table error. -/
def TableError.message : TableError → String
  | .noColumns => "No columns to parse from file"
  | .longLine width number fields =>
    "Error tokenizing data. C error: Expected " ++ toString width ++ " fields in line "
      ++ toString number ++ ", saw " ++ toString fields ++ "\n"
  | .openQuote lines =>
    "Error tokenizing data. C error: EOF inside string starting at row " ++ toString lines

/-- The lines of a text, each as its number and its fields. -/
def rows (text : String) : Except TableError (List (Nat × List String)) :=
  let cs := text.toList
  let cs := if cs.head? = some '\ufeff' then cs.drop 1 else cs
  (cs.foldl Reader.step {}).finish.mapError .openQuote

/-- The headings and the fields under them, line by line. -/
structure Table where
  /-- The headings. -/
  headings : List String
  /-- The fields of each line, without labels. -/
  lines : List (List String)

/-- The table of numbered lines, the first of which has the headings. -/
def Table.ofRows : List (Nat × List String) → Except TableError Table
  | [] => .error .noColumns
  | (_, headings) :: rows =>
    let first := (rows.head?.map fun row => row.2.length).getD 0
    let width := max headings.length first
    match rows.find? fun row => width < row.2.length with
    | some (number, fields) => .error (.longLine width number fields.length)
    | none => .ok { headings, lines := rows.map fun row => row.2.drop (width - headings.length) }

/-! ## Numbers in fields -/

/-- The most digits of a number that count. -/
def digitLimit : Nat :=
  17

/-- The sum of powers of ten that digits mean, added up in doubles. -/
def accumulate (digits : List Char) : Float :=
  digits.foldl (fun x c => x * 10.0 + Double.ofNat (c.toNat - 0x30)) 0.0

/-- The double nearest `10 ^ k`. -/
def tenTo (k : Nat) : Float :=
  Float.ofScientific 1 false k

/-- A number shifted by a power of ten. -/
def shift (x : Float) (exponent : Int) : Float :=
  if 308 < exponent then x * (1.0 / 0.0)
  else if 0 < exponent then x * tenTo exponent.toNat
  else if exponent < -308 then x / tenTo (-308 - exponent).toNat / tenTo 308
  else x / tenTo (-exponent).toNat

/-- The number a field means, if it is a finite decimal or names an infinity. -/
def real? (field : String) : Option Float := do
  let (negative, cs) := Reading.splitSign (Text.strip field.toList)
  let word := String.ofList (cs.map Char.toLower)
  let magnitude ←
    if word = "inf" ∨ word = "infinity" then some (1.0 / 0.0)
    else if cs.all (fun c => c.toNat < 0x80) && Decimal.isWritten cs then
      let mantissa := Decimal.mantissaOf cs
      let whole := mantissa.takeWhile (· != '.')
      let fraction := ((mantissa.dropWhile (· != '.')).drop 1).take (digitLimit - whole.length)
      let (sign, power) := Reading.splitSign (Decimal.powerOf cs)
      let exponent := Double.signed sign (Text.numberOfDigits (power.take digitLimit))
      let exponent := exponent + (whole.length - digitLimit : Nat) - fraction.length
      let x := shift (accumulate (whole.take digitLimit ++ fraction)) exponent
      if x.isFinite then some x else none
    else none
  return if negative then -magnitude else magnitude

/-- The whole number a field means, if it is one of at most 64 bits. -/
def whole? (field : String) : Option Int := do
  let (negative, cs) := Reading.splitSign (Text.strip field.toList)
  if !cs.isEmpty && cs.all Char.isDigit then
    let n := Double.signed negative (Text.numberOfDigits cs)
    if -(Nat.pow 2 63 : Int) ≤ n ∧ n < Nat.pow 2 64 then some n else none
  else none

/-- The truth value a field names. -/
def flag? (field : String) : Option Bool :=
  if ["true", "True", "TRUE"].contains field then some true
  else if ["false", "False", "FALSE"].contains field then some false
  else none

/-- The fields that stand for no value. -/
def emptyWords : List String := [
  "", "#N/A", "#N/A N/A", "#NA", "-1.#IND", "-1.#QNAN", "-NaN", "-nan", "1.#IND", "1.#QNAN",
  "<NA>", "N/A", "NA", "NULL", "NaN", "None", "n/a", "nan", "null"]

/-! ## Columns -/

/-- A field read by a given reader, NaN when it is empty; none when the reader refuses it. -/
def orEmpty (read : String → Option Entry) (field : String) : Option Entry :=
  if emptyWords.contains field then some (.real (0.0 / 0.0)) else read field

/-- The entries of a column: the first type that takes all its fields. -/
def column (fields : List String) : List Entry :=
  let whole := fields.mapM fun s => (whole? s).map Entry.whole
  let real := fields.mapM (orEmpty fun s => (real? s).map Entry.real)
  let flag := fields.mapM fun s => (flag? s).map Entry.flag
  let text := fields.map fun s => (orEmpty (fun t => some (.text t)) s).getD .null
  ((whole <|> real) <|> flag).getD text

/-- The name of a column without regard to case and white space. -/
def columnName (heading : String) : String :=
  String.ofList ((Text.strip heading.toList).map Char.toLower)

/-- The columns of a table: their names and their fields.  Of two columns with one heading the
first counts, and of two headings that differ in case only the last. -/
def columns (headings : List String) (lines : List (List String)) :
    List (String × List Entry) :=
  let indexed := headings.zipIdx
  let kept := indexed.filter fun h => !(indexed.any fun g => g.1 == h.1 && g.2 < h.2)
  (kept.map fun h =>
    (columnName h.1, column (lines.map fun fields => (fields[h.2]?).getD ""))).reverse

/-! ## Records -/

/-- The entries of each line of a table by column name. -/
def entries (t : Table) : List (List (String × Entry)) :=
  let named := columns t.headings t.lines
  (List.range t.lines.length).map fun i => named.map fun c => (c.1, (c.2[i]?).getD .null)

end DataFile

/-- Why a data file does not make a source. -/
inductive LoadError where
  | table (e : DataFile.TableError)
  | records (e : RecordsError)

/-- The source of a data file. -/
def Source.ofText (text : String) : Except LoadError Source := do
  let rows ← (DataFile.rows text).mapError .table
  let table ← (DataFile.Table.ofRows rows).mapError .table
  (Source.ofEntries (DataFile.entries table)).mapError .records

end TradeRules
