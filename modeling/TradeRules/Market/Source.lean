import TradeRules.Market.Symbol
import TradeRules.Market.Timestamp
import TradeRules.Rule.Kind

/-!
# Quote sources

A source holds the daily quotes of several symbols on one calendar.  Rules address days by their
position in the calendar: day 0 is the first trading day of the source, and a reference day plus a
signed offset selects the day that is read.

Each symbol brings its own days, in any order, as a `Frame`.  A frame is read from a `Table`, whose rows
are at points in time; the time of day is dropped.  The calendar of the source is the ordered union of
the days of all frames.  A symbol has no quote on a day of the calendar that its frame lacks, nor in a
field that its frame leaves open.

A frame may hold a day twice only if its days are the calendar as they stand.  Then the calendar
holds the day twice too, and otherwise `Source.ofFrames` fails.
-/

namespace TradeRules

/-! ## Quotes -/

/-- The quotes of one symbol on one day.  A field may be without a quote. -/
structure Bar where
  /-- The opening price. -/
  opening : Option Float := none
  /-- The highest price. -/
  high : Option Float := none
  /-- The lowest price. -/
  low : Option Float := none
  /-- The closing price. -/
  closing : Option Float := none
  /-- The number of shares traded. -/
  volume : Option Float := none

/-- The quote of a field. -/
def Bar.get? (b : Bar) : Field → Option Float
  | .opening => b.opening
  | .high => b.high
  | .low => b.low
  | .closing => b.closing
  | .volume => b.volume

/-- The quotes of one symbol by day, in any order. -/
abbrev Frame : Type :=
  List (Date × Bar)

/-! ## Errors -/

/-- Why a quote, a day or a date cannot be found. -/
inductive MissingQuote where
  | noQuote (field : Field) (symbol : Symbol) (day : Int)
  | outsideCalendar (day : Int)
  | beforeCalendar (date : Date)
deriving DecidableEq

/-- The message of a missing quote. -/
def MissingQuote.message : MissingQuote → String
  | .noQuote field symbol day =>
    "No " ++ field.word ++ " quote for " ++ symbol.code ++ " on day " ++ toString day
  | .outsideCalendar day => "Day " ++ toString day ++ " is outside the trading calendar"
  | .beforeCalendar date => "No trading day on or before " ++ date.text

/-- Why frames do not make a source. -/
inductive FrameError where
  | badSymbol (e : Symbol.Error)
  | missingColumns (symbol : Symbol) (names : List String)
  | repeatedDay
deriving DecidableEq

/-- The message of a frame error. -/
def FrameError.message : FrameError → String
  | .badSymbol e => e.message
  | .missingColumns symbol names => symbol.code ++ ": missing columns " ++ Text.quotedList names
  | .repeatedDay => "cannot reindex on an axis with duplicate labels"

/-! ## Frames from tables -/

namespace Frame

/-- A column of numbers.  NaN stands for no quote, like an open entry. -/
abbrev Column : Type :=
  String × List (Option Float)

/-- The entry of a column at a row. -/
def entry (columns : List Column) (field : Field) (row : Nat) : Option Float := do
  let (_, values) ← columns.find? fun column => column.1.toLower == field.word
  let value ← (values[row]?).join
  if value.isNaN then none else some value

/-- The frame of a symbol given by columns.  Column names are compared without regard to case, and
every field has to have a column. -/
def ofColumns (symbol : Symbol) (dates : List Date) (columns : List Column) :
    Except FrameError Frame :=
  let names := columns.map fun column => column.1.toLower
  let missing := (Field.all.map Field.word).filter fun name => !names.contains name
  if missing.isEmpty then
    .ok <| dates.mapIdx fun row date =>
      (date,
        { opening := entry columns .opening row
          high := entry columns .high row
          low := entry columns .low row
          closing := entry columns .closing row
          volume := entry columns .volume row })
  else .error (.missingColumns symbol (missing.mergeSort fun a b => !decide (b < a)))

end Frame

/-- The quotes of one symbol as they are given. -/
structure Table where
  /-- The points in time of the rows. -/
  times : List Timestamp
  /-- The columns, each with an entry for each row. -/
  columns : List Frame.Column

/-- The days of the rows. -/
def Table.days (table : Table) : List Date :=
  table.times.map Timestamp.day

namespace Frame

/-- The frame of a symbol given by a table. -/
def ofTable (symbol : Symbol) (table : Table) : Except FrameError Frame :=
  ofColumns symbol table.days table.columns

/-- A frame in the order of its days. -/
def sorted (frame : Frame) : Frame :=
  frame.mergeSort fun a b => !b.1.before a.1

/-- The days of a frame. -/
def days (frame : Frame) : List Date :=
  frame.map Prod.fst

/-- Whether an ordered list of days holds no day twice. -/
def strictlyOrdered : List Date → Bool
  | d :: e :: rest => d.before e && strictlyOrdered (e :: rest)
  | _ => true

/-- The ordered union of two ordered lists of days. -/
def union : List Date → List Date → List Date
  | [], es => es
  | ds, [] => ds
  | d :: ds, e :: es =>
    if d.before e then d :: union ds (e :: es)
    else if e.before d then e :: union (d :: ds) es
    else d :: union ds es
termination_by ds es => ds.length + es.length

/-- An ordered frame laid out on a calendar. -/
def align (calendar : List Date) (frame : Frame) : Except FrameError (Array Bar) :=
  if frame.days = calendar then .ok (frame.map Prod.snd).toArray
  else if strictlyOrdered frame.days then
    .ok (calendar.map fun date => (frame.lookup date).getD {}).toArray
  else .error .repeatedDay

end Frame

/-! ## Sources -/

/-- Daily quotes of several symbols on one calendar. -/
structure Source where
  /-- The trading days, in order. -/
  calendar : Array Date
  /-- The quotes of each symbol on the days of the calendar, in the order of the symbols. -/
  series : List (Symbol × Array Bar)

namespace Source

/-- A list of pairs with the value of a key replaced, or the pair added last. -/
def putFrame (frames : List (Symbol × Frame)) (symbol : Symbol) (frame : Frame) :
    List (Symbol × Frame) :=
  if frames.any fun entry => entry.1 == symbol then
    frames.map fun entry => if entry.1 == symbol then (symbol, frame) else entry
  else frames ++ [(symbol, frame)]

/-- The source made of frames.  Of two frames of one symbol the later one counts. -/
def ofFrames (frames : List (Symbol × Frame)) : Except FrameError Source := do
  let frames := frames.foldl (fun known entry => putFrame known entry.1 entry.2.sorted) []
  let calendar := frames.foldl (fun days entry => Frame.union days entry.2.days)
    ((frames.head?.map fun entry => entry.2.days).getD [])
  let series ← frames.mapM fun entry => do
    return (entry.1, ← Frame.align calendar entry.2)
  return { calendar := calendar.toArray, series := series.mergeSort fun a b => !b.1.before a.1 }

/-- A table read under a key, which has to mean a symbol. -/
def readTable (entry : String × Table) : Except FrameError (Symbol × Frame) := do
  let symbol ← (Symbol.parse entry.1).mapError .badSymbol
  return (symbol, ← Frame.ofTable symbol entry.2)

/-- The source made of tables, each under its key. -/
def ofTables (tables : List (String × Table)) : Except FrameError Source := do
  ofFrames (← tables.mapM readTable)

/-- The first trading day. -/
def firstDay (_ : Source) : Int :=
  0

/-- The last trading day, one before the first without any. -/
def lastDay (s : Source) : Int :=
  (s.calendar.size : Int) - 1

/-- All symbols, in order. -/
def symbols (s : Source) : List Symbol :=
  s.series.map Prod.fst

/-- The quote of a symbol on a day of the calendar, if there is one. -/
def quote? (s : Source) (symbol : Symbol) (field : Field) (day : Int) : Option Float :=
  if day < 0 then none
  else do
    let bars ← s.series.lookup symbol
    let bar ← bars[day.toNat]?
    bar.get? field

/-- The quote of a symbol on a day of the calendar. -/
def quote (s : Source) (symbol : Symbol) (field : Field) (day : Int) :
    Except MissingQuote Float :=
  match s.quote? symbol field day with
  | some x => .ok x
  | none => .error (.noQuote field symbol day)

/-- The date of a trading day. -/
def date (s : Source) (day : Int) : Except MissingQuote Date :=
  if day < 0 then .error (.outsideCalendar day)
  else
    match s.calendar[day.toNat]? with
    | some d => .ok d
    | none => .error (.outsideCalendar day)

/-- The last trading day on or before a date. -/
def dayOf (s : Source) (date : Date) : Except MissingQuote Int :=
  let count := s.calendar.toList.countP fun d => !date.before d
  if count = 0 then .error (.beforeCalendar date) else .ok ((count : Int) - 1)

/-- The symbols that closed on a day, in order. -/
def symbolsOn (s : Source) (day : Int) : List Symbol :=
  s.symbols.filter fun symbol => (s.quote? symbol .closing day).isSome

end Source

end TradeRules
