import TradeRules.Market.Date

/-!
# Points in time

The rows of a table of quotes are indexed by points in time: a date and a time of day.  Quotes are daily,
so the time of day does not count.  A point in time is normalized by going back to the midnight before it,
and the days of a table are the dates of its normalized points (`Timestamp.day`).

`Timestamp.ofText?` reads a date alone or with a time of day: `YYYY-MM-DD` and `YYYY-MM-DD HH:MM:SS`.
-/

namespace TradeRules

/-- The number of nanoseconds of a second. -/
def Timestamp.secondLength : Nat :=
  1000000000

/-- The number of nanoseconds of a day. -/
def Timestamp.dayLength : Nat :=
  24 * 60 * 60 * secondLength

/-- A point in time. -/
structure Timestamp where
  /-- The date. -/
  date : Date
  /-- The time of day, in nanoseconds since midnight. -/
  time : Nat
  /-- The day has this time. -/
  valid : time < Timestamp.dayLength
deriving DecidableEq

namespace Timestamp

/-- The start of a day. -/
def midnight (d : Date) : Timestamp where
  date := d
  time := 0
  valid := by decide

/-- The midnight before a point in time. -/
def normalized (t : Timestamp) : Timestamp :=
  midnight t.date

/-- The day of a point in time. -/
def day (t : Timestamp) : Date :=
  t.normalized.date

/-! ## Reading -/

/-- The point in time of a date, an hour, a minute and a second. -/
def ofParts? (date : Date) (hour minute second : Nat) : Option Timestamp :=
  if h : hour < 24 ∧ minute < 60 ∧ second < 60 then
    some
      { date
        time := ((hour * 60 + minute) * 60 + second) * secondLength
        valid := by unfold dayLength secondLength; omega }
  else none

/-- The rest of a text after a given character. -/
def after? (c : Char) (cs : List Char) : Option (List Char) :=
  if cs.head? = some c then some (cs.drop 1) else none

/-- The point in time that a text means. -/
def ofText? (text : String) : Option Timestamp := do
  let date ← Date.ofDashed? (String.ofList (text.toList.take 10))
  let cs := text.toList.drop 10
  if cs.isEmpty then return midnight date
  else
    let (hour, cs) ← Date.digits? 2 (← after? ' ' cs)
    let (minute, cs) ← Date.digits? 2 (← after? ':' cs)
    let (second, cs) ← Date.digits? 2 (← after? ':' cs)
    if cs.isEmpty then ofParts? date hour minute second else none

end Timestamp

end TradeRules
