import TradeRules.Number.Double

/-!
# Decimals near a double

A decimal is a natural number of digits scaled by a power of ten.  This module chooses the decimal
to write for a double, and finds the double that a written decimal means.

*Shortest.*  Every double stands for an interval of reals, those that round to it.  A decimal in
the interval reads back to the double.  `Decimal.shortest` takes the fewest digits for which the
interval holds a decimal, and of those the one nearest the double.  It tries one digit, then two,
and so on to seventeen, which always suffice.  A grid of decimals with a point in the interval has
one among the two neighbours of the double, so only these are tried.

*Rounded.*  `Decimal.toPlaces` and `Decimal.toSignificant` round the exact value of a double to a
given number of places or significant digits, ties to even.

*Reading.*  `Decimal.toDouble` is the double nearest a decimal.  Powers of ten that no double
reaches are answered before they are computed.

All comparisons are between exact fractions of natural numbers.
-/

namespace TradeRules

/-- The number `digits · 10 ^ exponent`. -/
structure Decimal where
  /-- All digits, without a point. -/
  digits : Nat
  /-- The power of ten of the last digit. -/
  exponent : Int
deriving DecidableEq, Repr

namespace Decimal

/-! ## Fractions -/

/-- A fraction of two natural numbers, the lower one positive. -/
structure Fraction where
  /-- The upper number. -/
  upper : Nat
  /-- The lower number. -/
  lower : Nat

/-- The fraction `m · 2 ^ e`. -/
def Fraction.ofBinary (m : Nat) (e : Int) : Fraction :=
  if 0 ≤ e then ⟨m * Nat.pow 2 e.toNat, 1⟩ else ⟨m, Nat.pow 2 (-e).toNat⟩

/-- The fraction divided by `10 ^ k`. -/
def Fraction.scale (q : Fraction) (k : Int) : Fraction :=
  if 0 ≤ k then ⟨q.upper, q.lower * Nat.pow 10 k.toNat⟩ else ⟨q.upper * Nat.pow 10 (-k).toNat, q.lower⟩

/-- The natural number nearest a fraction; a half goes to the even neighbour. -/
def Fraction.roundHalfEven (q : Fraction) : Nat :=
  let quotient := q.upper / q.lower
  let twice := 2 * (q.upper % q.lower)
  if twice < q.lower then quotient
  else if q.lower < twice then quotient + 1
  else if quotient % 2 = 0 then quotient else quotient + 1

/-- The power of ten of the first digit of a positive fraction: `10 ^ k ≤ q < 10 ^ (k + 1)`.
The powers of two of the two numbers give it up to one. -/
def Fraction.decade (q : Fraction) : Int :=
  let binary : Int := (q.upper.log2 : Int) - q.lower.log2 - 1
  let guess : Int := binary * (if 0 ≤ binary then 30102 else 30103) / 100000
  let reached (k : Int) : Bool :=
    let s := q.scale k
    s.lower ≤ s.upper
  if reached (guess + 1) then guess + 1 else guess

/-! ## Shortest digits -/

/-- The reals that round to a finite positive double, as fractions.  The ends belong to the
interval when the mantissa is even. -/
structure Interval where
  /-- The double itself. -/
  value : Fraction
  /-- The lower end. -/
  low : Fraction
  /-- The upper end. -/
  high : Fraction
  /-- Whether the ends belong to it. -/
  closed : Bool

/-- The interval of a double given by its parts.  Below a power of two the doubles lie twice as
dense, except at the smallest exponent. -/
def interval (p : Double.Parts) : Interval :=
  let below := if p.mantissa = Nat.pow 2 52 ∧ -1074 < p.exponent then 1 else 2
  { value := .ofBinary (4 * p.mantissa) (p.exponent - 2)
    low := .ofBinary (4 * p.mantissa - below) (p.exponent - 2)
    high := .ofBinary (4 * p.mantissa + 2) (p.exponent - 2)
    closed := p.mantissa % 2 = 0 }

/-- Whether `n · 10 ^ k` lies in the interval. -/
def Interval.holds (i : Interval) (k : Int) (n : Nat) : Bool :=
  let low := i.low.scale k
  let high := i.high.scale k
  if i.closed then low.upper ≤ n * low.lower && n * high.lower ≤ high.upper
  else low.upper < n * low.lower && n * high.lower < high.upper

/-- The point of the grid of multiples of `10 ^ k` to write for the interval, if one lies in it:
of the two neighbours of the double the nearer one, at equal distance the even one. -/
def Interval.onGrid (i : Interval) (k : Int) : Option Decimal :=
  let v := i.value.scale k
  let under := v.upper / v.lower
  match i.holds k under, i.holds k (under + 1) with
  | true, true => some ⟨v.roundHalfEven, k⟩
  | true, false => some ⟨under, k⟩
  | false, true => some ⟨under + 1, k⟩
  | false, false => none

/-- The first grid point found on the grids `10 ^ k`, `10 ^ (k - 1)`, …, at most `count` of them. -/
def Interval.search (i : Interval) : Nat → Int → Option Decimal
  | 0, _ => none
  | count + 1, k =>
    match i.onGrid k with
    | some d => some d
    | none => i.search count (k - 1)

/-- A decimal without zeros at its end, unless it is zero. -/
def stripZeros : Nat → Decimal → Decimal
  | 0, d => d
  | fuel + 1, d =>
    if d.digits ≠ 0 ∧ d.digits % 10 = 0 then stripZeros fuel ⟨d.digits / 10, d.exponent + 1⟩ else d

/-- The shortest decimal that reads back to the magnitude of a finite double. -/
def shortest (x : Float) : Decimal :=
  let p := Double.parts x
  if p.mantissa = 0 then ⟨0, 0⟩
  else
    let i := interval p
    match i.search 17 i.value.decade with
    | some d => stripZeros 20 d
    | none => ⟨0, 0⟩

/-! ## Rounding to a given precision -/

/-- The magnitude of a finite double rounded to the given number of places after the point. -/
def toPlaces (places : Nat) (x : Float) : Decimal :=
  let p := Double.parts x
  let k : Int := -(places : Int)
  ⟨((Fraction.ofBinary p.mantissa p.exponent).scale k).roundHalfEven, k⟩

/-- The magnitude of a finite double rounded to the given positive number of significant digits.
Rounding up to a power of ten keeps the number of digits. -/
def toSignificant (count : Nat) (x : Float) : Decimal :=
  let p := Double.parts x
  if p.mantissa = 0 then ⟨0, 0⟩
  else
    let q := Fraction.ofBinary p.mantissa p.exponent
    let k := q.decade - (count - 1 : Nat)
    let n := (q.scale k).roundHalfEven
    if n = Nat.pow 10 count then ⟨Nat.pow 10 (count - 1), k + 1⟩ else ⟨n, k⟩

/-! ## Digits as text -/

/-- The decimal digits of a natural number, most significant first. -/
def digitChars (n : Nat) : List Char :=
  Nat.toDigits 10 n

/-- The power of ten of the first digit. -/
def leading (d : Decimal) : Int :=
  d.exponent + ((digitChars d.digits).length - 1 : Nat)

/-! ## Reading -/

/-- The double nearest a decimal.  Below `10 ^ -400` it is zero and from `10 ^ 400` on infinite,
whatever the digits. -/
def toDouble (d : Decimal) : Float :=
  if d.digits = 0 then 0.0
  else if 400 < d.leading then 1.0 / 0.0
  else if d.leading < -400 then 0.0
  else Float.ofScientific d.digits (d.exponent < 0) d.exponent.natAbs

/-- A double rounded to the given positive number of significant digits. -/
def roundSignificant (count : Nat) (x : Float) : Float :=
  if x.isFinite then
    let y := toDouble (toSignificant count x)
    if (Double.parts x).negative then -y else y
  else x

end Decimal

end TradeRules
