import TradeRules.Market.Source

/-!
# Windows of quotes

How the functions of rules look up quotes.  A single quote that is missing reads as zero.  A window
of `period` days ends `offset` days from the reference day, and days without a quote are left out of
it, which shrinks the sample.  A paired window keeps the days on which both symbols have a quote.

`Source.windowDays` lists the days of a window that lie in the calendar, oldest first.  No other day
has a quote, so a window reads only these, however long its period.
-/

namespace TradeRules

namespace Source

/-- The days from `first` to `last` that lie in the calendar, in order. -/
def daysBetween (s : Source) (first last : Int) : List Int :=
  let start := max first 0
  let stop := min last s.lastDay + 1
  (List.range (stop - start).toNat).map fun i : Nat => start + (i : Int)

/-- The days of a window that lie in the calendar. -/
def windowDays (s : Source) (day period offset : Int) : List Int :=
  s.daysBetween (day + offset - period + 1) (day + offset)

/-- The quote on one day, zero when there is none. -/
def single (s : Source) (symbol : Symbol) (field : Field) (day offset : Int) : Float :=
  (s.quote? symbol field (day + offset)).getD 0.0

/-- The quotes of a window, oldest first. -/
def window (s : Source) (symbol : Symbol) (field : Field) (day period offset : Int) :
    List Float :=
  (s.windowDays day period offset).filterMap fun d => s.quote? symbol field d

/-- The quotes of two symbols on the days of a window on which both have one, oldest first. -/
def pairedWindow (s : Source) (symbol partner : Symbol) (field : Field)
    (day period offset : Int) : List (Float × Float) :=
  (s.windowDays day period offset).filterMap fun d => do
    let x ← s.quote? symbol field d
    let y ← s.quote? partner field d
    return (x, y)

end Source

end TradeRules
