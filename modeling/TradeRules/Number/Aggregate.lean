import TradeRules.Number.Double

/-!
# Aggregates of samples

The statistics that rules take over a window of quotes, as functions of the list of samples, oldest
first.  Each has a value of its own for a window with too few samples.

Sums decide the last bits of every mean and deviation, so their order is fixed: `Samples.pairwise`
adds short lists from left to right, lists up to 128 in eight interleaved runs, and splits longer
ones in two.
-/

namespace TradeRules

namespace Samples

/-! ## Sums -/

/-- The sum from left to right, starting from the first sample. -/
def sequential : List Float → Float
  | [] => 0.0
  | x :: xs => xs.foldl (· + ·) x

/-- Eight running sums. -/
structure Lanes where
  /-- The sum of the samples at positions `0`, `8`, `16`, …, and so on for the others. -/
  (r0 r1 r2 r3 r4 r5 r6 r7 : Float)

/-- The lanes added up in pairs, pairs of pairs, and both halves. -/
def Lanes.total (l : Lanes) : Float :=
  ((l.r0 + l.r1) + (l.r2 + l.r3)) + ((l.r4 + l.r5) + (l.r6 + l.r7))

/-- The rest of a list added to eight lanes.  Each whole block of eight adds one sample to every
lane, and the samples after the last whole block are added one by one. -/
def Lanes.add (l : Lanes) : List Float → Float
  | a :: b :: c :: d :: e :: f :: g :: h :: rest =>
    Lanes.add ⟨l.r0 + a, l.r1 + b, l.r2 + c, l.r3 + d, l.r4 + e, l.r5 + f, l.r6 + g, l.r7 + h⟩ rest
  | rest => rest.foldl (· + ·) l.total

/-- The sum of at most 128 samples. -/
def block : List Float → Float
  | a :: b :: c :: d :: e :: f :: g :: h :: rest => Lanes.add ⟨a, b, c, d, e, f, g, h⟩ rest
  | few => sequential few

/-- The sum in halves: more than 128 samples are split at half their number, rounded down to a
multiple of eight. -/
def pairwise (xs : List Float) : Float :=
  if xs.length ≤ 128 then block xs
  else
    let middle := xs.length / 2 - xs.length / 2 % 8
    pairwise (xs.take middle) + pairwise (xs.drop middle)
termination_by xs.length
decreasing_by
  · simp only [List.length_take]
    omega
  · simp only [List.length_drop]
    omega

/-- The sum of the samples; a sum of zeros is a positive zero. -/
def sum (xs : List Float) : Float :=
  0.0 + pairwise xs

/-- The sum divided by the number of samples. -/
def mean (xs : List Float) : Float :=
  sum xs / Double.ofNat xs.length

/-- The square root of the mean squared distance from the mean. -/
def deviation (xs : List Float) : Float :=
  let m := mean xs
  (mean (xs.map fun x => (x - m) * (x - m))).sqrt

/-- The first sample that no later one replaces.  A NaN replaces every number and is replaced by
none. -/
def extreme (better : Float → Float → Bool) : List Float → Float
  | [] => 0.0
  | x :: xs => xs.foldl (fun best y => if best.isNaN then best
      else if y.isNaN || better y best then y else best) x

/-! ## Window statistics -/

/-- The mean, zero without samples. -/
def average (xs : List Float) : Float :=
  if xs.isEmpty then 0.0 else mean xs

/-- The least sample, zero without samples. -/
def minimum (xs : List Float) : Float :=
  extreme (fun x y => x < y) xs

/-- The greatest sample, zero without samples. -/
def maximum (xs : List Float) : Float :=
  extreme (fun x y => y < x) xs

/-- The sum, zero without samples. -/
def total (xs : List Float) : Float :=
  if xs.isEmpty then 0.0 else sum xs

/-- The population standard deviation, zero for fewer than two samples. -/
def standardDeviation (xs : List Float) : Float :=
  if xs.length ≤ 1 then 0.0 else deviation xs

/-- The width of the Bollinger bands in standard deviations. -/
def bandWidth : Float :=
  2.0

/-- The lower Bollinger band, zero without samples. -/
def lowerBand (xs : List Float) : Float :=
  if xs.isEmpty then 0.0 else average xs - bandWidth * standardDeviation xs

/-- The upper Bollinger band, zero without samples. -/
def upperBand (xs : List Float) : Float :=
  if xs.isEmpty then 0.0 else average xs + bandWidth * standardDeviation xs

/-- The exponential average, which starts at the oldest sample and moves toward each later one by
the share `smoothing`.  Zero without samples. -/
def exponentialAverage (smoothing : Float) : List Float → Float
  | [] => 0.0
  | x :: xs => xs.foldl (fun average y => smoothing * y + (1.0 - smoothing) * average) x

/-! ## Relative strength -/

/-- The strength of a window that does not move. -/
def neutralStrength : Float :=
  50.0

/-- The differences of consecutive samples. -/
def changes : List Float → List Float
  | x :: y :: rest => (y - x) :: changes (y :: rest)
  | _ => []

/-- The rises among the changes. -/
def gains (xs : List Float) : List Float :=
  (changes xs).filter fun c => 0.0 < c

/-- The falls among the changes, as positive numbers. -/
def losses (xs : List Float) : List Float :=
  ((changes xs).filter fun c => c < 0.0).map fun c => -c

/-- The relative strength index.  Rises and falls are each averaged over the days that moved that
way.  Without movement it is neutral, and without falls it is 100. -/
def relativeStrength (xs : List Float) : Float :=
  let up := gains xs
  let down := losses xs
  if down.isEmpty then
    if up.isEmpty then neutralStrength else 100.0
  else
    let ratio := average up / mean down
    100.0 - 100.0 / (1.0 + ratio)

/-! ## Correlation -/

/-- The sum of products of the distances of two lists from their means. -/
def codeviation (xs ys : List Float) : Float :=
  let mx := mean xs
  let my := mean ys
  sequential (List.zipWith (fun x y => (x - mx) * (y - my)) xs ys)

/-- A number moved to the nearest end of `[-1, 1]` when it lies outside. -/
def clip (r : Float) : Float :=
  if r < -1.0 then -1.0 else if 1.0 < r then 1.0 else r

/-- The correlation of two lists of samples of the same days, zero with fewer than two samples or
when one of the lists does not vary. -/
def correlation (xs ys : List Float) : Float :=
  if xs.length ≤ 1 then 0.0
  else if deviation xs == 0.0 || deviation ys == 0.0 then 0.0
  else
    let freedom := Double.ofNat (xs.length - 1)
    let covariance := codeviation xs ys / freedom
    let spread (zs : List Float) : Float := (codeviation zs zs / freedom).sqrt
    clip (covariance / spread xs / spread ys)

end Samples

end TradeRules
