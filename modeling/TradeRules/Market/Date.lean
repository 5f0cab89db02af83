import TradeRules.Text.Quoted

/-!
# Calendar dates

Dates of the Gregorian calendar from year 1 to year 9999, extended to the years before its adoption.
A date is a year, a month and a day that exist together, and the existence is part of the type.

Dates are ordered by year, month and day.  `Date.ordinal` counts the days up to a date, and the day
of the week and of the year come from it.

`Date.parse` reads the ISO forms: year, month and day, or year, week and day of the week, with
dashes at both places or at none.
-/

namespace TradeRules

/-! ## The calendar -/

namespace Calendar

/-- Whether a year has a leap day. -/
def isLeap (year : Nat) : Bool :=
  year % 4 == 0 && (year % 100 != 0 || year % 400 == 0)

/-- The number of days of a month. -/
def monthLength (year month : Nat) : Nat :=
  if month = 2 then if isLeap year then 29 else 28
  else if month = 4 ∨ month = 6 ∨ month = 9 ∨ month = 11 then 30
  else 31

/-- The number of days before a year. -/
def daysBeforeYear (year : Nat) : Nat :=
  let y := year - 1
  y * 365 + y / 4 - y / 100 + y / 400

/-- The number of days of a year before a month. -/
def daysBeforeMonth (year month : Nat) : Nat :=
  (List.range (month - 1)).foldl (fun days m => days + monthLength year (m + 1)) 0

/-- Whether a year, a month and a day exist together. -/
def isDate (year month day : Nat) : Bool :=
  1 ≤ year && year ≤ 9999 && 1 ≤ month && month ≤ 12 && 1 ≤ day && day ≤ monthLength year month

end Calendar

/-- A calendar date. -/
structure Date where
  /-- The year. -/
  year : Nat
  /-- The month, from 1. -/
  month : Nat
  /-- The day of the month, from 1. -/
  day : Nat
  /-- The date exists. -/
  valid : Calendar.isDate year month day = true
deriving DecidableEq

namespace Date

/-- A number that orders dates: the digits of year, month and day. -/
def key (d : Date) : Nat :=
  (d.year * 100 + d.month) * 100 + d.day

/-- Whether one date comes before another. -/
def before (d e : Date) : Bool :=
  d.key < e.key

/-- The number of days from the first date up to this one. -/
def ordinal (d : Date) : Nat :=
  Calendar.daysBeforeYear d.year + Calendar.daysBeforeMonth d.year d.month + d.day

/-- The day of the week, from 1 for Monday to 7. -/
def weekday (d : Date) : Nat :=
  (d.ordinal + 6) % 7 + 1

/-- The day of the year, from 1. -/
def yearday (d : Date) : Nat :=
  Calendar.daysBeforeMonth d.year d.month + d.day

/-- A number padded with zeros to a width. -/
def padded (width n : Nat) : String :=
  let digits := Nat.toDigits 10 n
  String.ofList (List.replicate (width - digits.length) '0' ++ digits)

/-- The text of a date: `YYYY-MM-DD`. -/
def text (d : Date) : String :=
  padded 4 d.year ++ "-" ++ padded 2 d.month ++ "-" ++ padded 2 d.day

/-! ## Making dates -/

/-- Why there is no date. -/
inductive Error where
  /-- The text has none of the forms. -/
  | notIso (text : String)
  | yearRange (year : Nat)
  | monthRange
  | dayRange
deriving DecidableEq, Repr

/-- The message of a date error. -/
def Error.message : Error → String
  | .notIso text => "Invalid isoformat string: " ++ Text.quoted text
  | .yearRange year => "year " ++ toString year ++ " is out of range"
  | .monthRange => "month must be in 1..12"
  | .dayRange => "day is out of range for month"

/-- The date of a year, a month and a day. -/
def ofParts (year month day : Nat) : Except Error Date :=
  if h : Calendar.isDate year month day = true then .ok ⟨year, month, day, h⟩
  else if year < 1 ∨ 9999 < year then .error (.yearRange year)
  else if month < 1 ∨ 12 < month then .error .monthRange
  else .error .dayRange

/-- The year that a day counted from the first date falls in. -/
def yearOfOrdinal (n : Nat) : Nat :=
  let least := n / 366 + 1
  (((List.range 40).map (least + ·)).find? fun y => n ≤ Calendar.daysBeforeYear (y + 1)).getD least

/-- The date of a day counted from the first date. -/
def ofOrdinal (n : Nat) : Except Error Date :=
  let year := yearOfOrdinal n
  let rest := n - Calendar.daysBeforeYear year
  match ((List.range 12).map (· + 1)).reverse.find? fun m =>
      Calendar.daysBeforeMonth year m < rest with
  | some month => ofParts year month (rest - Calendar.daysBeforeMonth year month)
  | none => .error .monthRange

/-- The day before the first week of a year.  That week is the one with the first Thursday. -/
def beforeFirstWeek (year : Nat) : Nat :=
  let first := Calendar.daysBeforeYear year + 1
  let sinceMonday := (first + 6) % 7
  if sinceMonday > 3 then first + 6 - sinceMonday else first - 1 - sinceMonday

/-- Whether a year has a fifty-third week: it starts on a Thursday, or on a Wednesday and has a
leap day. -/
def hasLongYear (year : Nat) : Bool :=
  let sinceMonday := (Calendar.daysBeforeYear year + 7) % 7
  sinceMonday == 3 || sinceMonday == 2 && Calendar.isLeap year

/-- The date of a year, a week and a day of the week, if the week and the day exist.  The weeks
before the first year have no months. -/
def ofWeek? (year week weekday : Nat) : Option (Except Error Date) :=
  if 1 ≤ week ∧ (week ≤ 52 ∨ week = 53 ∧ hasLongYear year) ∧ 1 ≤ weekday ∧ weekday ≤ 7 then
    if year = 0 then some (.error .monthRange)
    else some (ofOrdinal (beforeFirstWeek year + (week - 1) * 7 + weekday))
  else none

/-! ## Reading -/

/-- A number of exactly `count` ASCII digits at the front of a text, and the rest. -/
def digits? (count : Nat) (cs : List Char) : Option (Nat × List Char) :=
  let front := cs.take count
  if front.length = count ∧ front.all Char.isDigit = true then
    some (front.foldl (fun n c => 10 * n + (c.toNat - 0x30)) 0, cs.drop count)
  else none

/-- The rest of a text after a dash, which is asked for only in the form with dashes. -/
def dash? (dashed : Bool) (cs : List Char) : Option (List Char) :=
  if dashed then (if cs.head? = some '-' then some (cs.drop 1) else none) else some cs

/-- The date that the characters mean, if they have one of the forms. -/
def ofChars? (cs : List Char) : Option (Except Error Date) := do
  let (year, cs) ← digits? 4 cs
  let dashed := cs.head? == some '-'
  let cs := if dashed then cs.drop 1 else cs
  if cs.head? = some 'W' then
    let (week, cs) ← digits? 2 (cs.drop 1)
    if cs.isEmpty then ofWeek? year week 1
    else
      let cs ← dash? dashed cs
      let (weekday, _) ← digits? 1 cs
      ofWeek? year week weekday
  else
    let (month, cs) ← digits? 2 cs
    let cs ← dash? dashed cs
    let (day, _) ← digits? 2 cs
    return ofParts year month day

/-- The date that a text means.  The forms have seven, eight or ten characters. -/
def parse (text : String) : Except Error Date :=
  if [7, 8, 10].contains text.utf8ByteSize then
    match ofChars? text.toList with
    | some result => result
    | none => .error (.notIso text)
  else .error (.notIso text)

/-- The date of the form `YYYY-MM-DD` and no other. -/
def ofDashed? (text : String) : Option Date := do
  let (year, cs) ← digits? 4 text.toList
  let cs ← dash? true cs
  let (month, cs) ← digits? 2 cs
  let cs ← dash? true cs
  let (day, cs) ← digits? 2 cs
  if cs.isEmpty then (ofParts year month day).toOption else none

/-- The ordinal of the day from which seconds are counted in data files, the first of 1970. -/
def epoch : Nat :=
  719163

end Date

end TradeRules
