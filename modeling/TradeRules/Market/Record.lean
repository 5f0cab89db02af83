import TradeRules.Market.Source
import TradeRules.Number.Reading

/-!
# Quote records

One trading day of one symbol, as data files and callers deliver it: seven named entries of any
type.  `Record.validate` reads them leniently.  A number may be written as text, a whole price or
volume may come in either number type, and the symbol may be in any case.

Entries are judged one by one in their order, and all entries that fail are reported.  The order of
the prices is judged only when every entry is good.  `Source.ofEntries` builds a source from records
and stops at the first bad one.
-/

namespace TradeRules

/-- An entry as it is delivered. -/
inductive Entry where
  | null
  | flag (b : Bool)
  | whole (n : Int)
  | real (x : Float)
  | text (s : String)
  /-- A list or a table. -/
  | compound

/-- One trading day of one symbol. -/
structure Record where
  /-- The symbol. -/
  symbol : Symbol
  /-- The trading day. -/
  date : Date
  /-- The opening price. -/
  opening : Float
  /-- The highest price. -/
  high : Float
  /-- The lowest price. -/
  low : Float
  /-- The closing price. -/
  closing : Float
  /-- The number of shares traded. -/
  volume : Int

/-! ## Faults -/

/-- What is wrong with an entry, or with the record as a whole. -/
inductive Fault where
  | missing
  | notText
  | badSymbol (e : Symbol.Error)
  | notDate
  | badDate
  /-- A time of day is given where a date is needed. -/
  | timeOfDay
  | notNumber
  | badNumber
  | notWhole
  | badWhole
  /-- A whole number is needed, and the number has a fraction. -/
  | fraction
  /-- A whole number is needed, and the number is infinite or NaN. -/
  | infinite
  | negative
  /-- The highest price is below the lowest. -/
  | highBelowLow
  /-- A price lies outside of the day's range. -/
  | outsideRange (field : Field)
deriving DecidableEq

/-- The code of a fault. -/
def Fault.code : Fault → String
  | .missing => "missing"
  | .notText => "string_type"
  | .notDate => "date_type"
  | .badDate => "date_from_datetime_parsing"
  | .timeOfDay => "date_from_datetime_inexact"
  | .notNumber => "float_type"
  | .badNumber => "float_parsing"
  | .notWhole => "int_type"
  | .badWhole => "int_parsing"
  | .fraction => "int_from_float"
  | .infinite => "finite_number"
  | .negative => "greater_than_equal"
  | .badSymbol _ | .highBelowLow | .outsideRange _ => "value_error"

/-- The message of a fault, for the faults that have one of their own. -/
def Fault.message? : Fault → Option String
  | .badSymbol e => some ("Value error, " ++ e.message)
  | .highBelowLow => some "Value error, high must be >= low"
  | .outsideRange field => some ("Value error, " ++ field.word ++ " must lie between low and high")
  | _ => none

/-- The faults of a record, with the name of the entry each is found in; a fault of the record as a
whole has none. -/
structure InvalidRecord where
  /-- The faults, in the order of the entries. -/
  faults : List (Option String × Fault)

/-! ## Entries -/

namespace Entry

/-- The number of seconds of a day. -/
def daySeconds : Int :=
  86400

/-- The greatest count of seconds; a greater count is one of thousandths. -/
def greatestSeconds : Int :=
  20000000000

/-- The date that begins a number of seconds after the start of 1970. -/
def dateOfSeconds (n : Int) : Except Fault Date :=
  let seconds := if n.natAbs ≤ greatestSeconds.natAbs then n else n / 1000
  if seconds % daySeconds ≠ 0 then .error .timeOfDay
  else (Date.ofOrdinal (seconds / daySeconds + Date.epoch).toNat).mapError fun _ => .badDate

/-- The symbol that an entry means. -/
def symbol : Entry → Except Fault Symbol
  | .text s => (Symbol.parse s).mapError .badSymbol
  | _ => .error .notText

/-- The date that an entry means. -/
def date : Entry → Except Fault Date
  | .text s =>
    match Date.ofDashed? s with
    | some d => .ok d
    | none => .error .badDate
  | .whole n => dateOfSeconds n
  | .real x => if x.isFinite then dateOfSeconds (Double.truncate x) else .error .badDate
  | _ => .error .notDate

/-- The price that an entry means, which is not negative. -/
def price (entry : Entry) : Except Fault Float := do
  let x ←
    match entry with
    | .real x => .ok x
    | .whole n => if (Double.ofInt n).isFinite then .ok (Double.ofInt n) else .error .notNumber
    | .flag b => .ok (if b then 1.0 else 0.0)
    | .text s =>
      match Reading.double? s with
      | some x => .ok x
      | none => .error .badNumber
    | _ => .error .notNumber
  if 0.0 ≤ x then return x else throw .negative

/-- A text without the zeros and the point that end it, when it has a point. -/
def dropPointZeros (s : String) : String :=
  let cs := s.toList
  let back := cs.reverse.dropWhile (· == '0')
  if back.head? = some '.' then String.ofList (back.drop 1).reverse else s

/-- The count of shares that an entry means, which is not negative. -/
def volume (entry : Entry) : Except Fault Int := do
  let n ←
    match entry with
    | .whole n => .ok n
    | .flag b => .ok (if b then 1 else 0)
    | .real x =>
      if !x.isFinite then .error .infinite
      else if Double.floor x == x then .ok (Double.truncate x)
      else .error .fraction
    | .text s =>
      match Reading.whole? (dropPointZeros s) with
      | some n => .ok n
      | none => .error .badWhole
    | _ => .error .notWhole
  if 0 ≤ n then return n else throw .negative

end Entry

/-! ## Records -/

namespace Record

/-- The price of a field, or the volume as a double. -/
def price (r : Record) : Field → Float
  | .opening => r.opening
  | .high => r.high
  | .low => r.low
  | .closing => r.closing
  | .volume => Double.ofInt r.volume

/-- The first fault in the order of the prices. -/
def rangeFault (r : Record) : Option Fault :=
  if r.high < r.low then some .highBelowLow
  else
    ([Field.opening, .closing].find? fun f => !(r.low ≤ r.price f && r.price f ≤ r.high)).map
      .outsideRange

/-- The value of a named entry. -/
def read {α : Type} (entries : List (String × Entry)) (name : String)
    (value : Entry → Except Fault α) : Except (List (Option String × Fault)) α :=
  let result :=
    match entries.lookup name with
    | some entry => value entry
    | none => .error .missing
  result.mapError fun fault => [(some name, fault)]

/-- Two results together; the faults of both count. -/
def both {α β : Type} (a : Except (List (Option String × Fault)) α)
    (b : Except (List (Option String × Fault)) β) : Except (List (Option String × Fault)) (α × β) :=
  match a, b with
  | .ok x, .ok y => .ok (x, y)
  | .error e, .ok _ => .error e
  | .ok _, .error f => .error f
  | .error e, .error f => .error (e ++ f)

/-- The record that named entries mean.  Entries with other names are passed over. -/
def validate (entries : List (String × Entry)) : Except InvalidRecord Record := do
  let price (f : Field) := read entries f.word Entry.price
  let fields :=
    both (read entries "symbol" Entry.symbol) <| both (read entries "date" Entry.date) <|
      both (price .opening) <| both (price .high) <| both (price .low) <| both (price .closing) <|
        read entries Field.volume.word Entry.volume
  let (symbol, date, opening, high, low, closing, volume) ← fields.mapError InvalidRecord.mk
  let r : Record := { symbol, date, opening, high, low, closing, volume }
  match r.rangeFault with
  | some fault => throw ⟨[(none, fault)]⟩
  | none => return r

/-- The quotes of a record. -/
def bar (r : Record) : Bar :=
  { opening := some r.opening, high := some r.high, low := some r.low, closing := some r.closing,
    volume := some (Double.ofInt r.volume) }

end Record

/-- The frames of records, one for each symbol, in the order in which the symbols occur. -/
def Frame.ofRecords (records : List Record) : List (Symbol × Frame) :=
  let symbols := (records.map Record.symbol).eraseDups
  symbols.map fun symbol =>
    (symbol, (records.filter fun r => r.symbol == symbol).map fun r => (r.date, r.bar))

/-- The source of validated records. -/
def Source.ofRecords (records : List Record) : Except FrameError Source :=
  Source.ofFrames (Frame.ofRecords records)

/-- Why records do not make a source. -/
inductive RecordsError where
  | invalid (e : InvalidRecord)
  /-- A volume is beyond all doubles. -/
  | volumeRange
  | frames (e : FrameError)

/-- The source of records as they are delivered.  The first bad record stops it, and so does a
volume that no finite double is near, since quotes are doubles. -/
def Source.ofEntries (records : List (List (String × Entry))) : Except RecordsError Source := do
  let records ← (records.mapM Record.validate).mapError .invalid
  if records.any fun r => !(Double.ofInt r.volume).isFinite then throw .volumeRange
  (Source.ofRecords records).mapError .frames

end TradeRules
