/-!
# Doubles read exactly

Prices, weights and portfolio values are doubles.  Their arithmetic is that of `Float`.  This
module adds the operations that `Float` has no exact form of: the integer part, the nearest
integer, the double nearest an integer, and the quotient of two doubles rounded down.

All of them go through `Double.parts`, which reads a finite double as `± mantissa · 2 ^ exponent`
with a natural mantissa.  The rest is arithmetic on `Int`, so no rounding happens on the way.  The
functions are total.  On an infinity or NaN the integer-valued ones answer some integer, and their
callers test `Float.isFinite` first.
-/

namespace TradeRules

namespace Double

/-! ## Decoding -/

/-- A finite double as a sign, a natural mantissa and a power of two. -/
structure Parts where
  /-- Whether the sign bit is set. -/
  negative : Bool
  /-- The mantissa, with its leading bit. -/
  mantissa : Nat
  /-- The power of two that scales the mantissa. -/
  exponent : Int
deriving DecidableEq, Repr

/-- The parts of a double.  Only finite doubles have a meaning here. -/
def parts (x : Float) : Parts :=
  let bits := x.toBits.toNat
  let biased : Nat := bits / Nat.pow 2 52 % Nat.pow 2 11
  let fraction : Nat := bits % Nat.pow 2 52
  { negative := bits / Nat.pow 2 63 == 1
    mantissa := if biased = 0 then fraction else fraction + Nat.pow 2 52
    exponent := (if biased = 0 then 1 else (biased : Int)) - 1075 }

/-- The double `2 ^ e`, for the exponents a double has. -/
def powerOfTwo (e : Int) : Float :=
  if -1022 ≤ e then
    .ofBits (UInt64.ofNat ((e + 1023).toNat * Nat.pow 2 52))
  else
    .ofBits (UInt64.ofNat (Nat.pow 2 (e + 1074).toNat))

/-! ## Integers and doubles -/

/-- The double nearest an integer, infinite when no finite double is near. -/
def ofInt (n : Int) : Float :=
  if n < 0 then -(Float.ofScientific n.natAbs false 0) else Float.ofScientific n.natAbs false 0

/-- The double nearest a natural number. -/
def ofNat (n : Nat) : Float :=
  Float.ofScientific n false 0

/-- The quotient of a natural number by `2 ^ k`, rounded to nearest, ties to even. -/
def halfEvenShift (m k : Nat) : Nat :=
  let quotient := m / Nat.pow 2 k
  let twice := 2 * (m % Nat.pow 2 k)
  if twice < Nat.pow 2 k then quotient
  else if Nat.pow 2 k < twice then quotient + 1
  else if quotient % 2 = 0 then quotient else quotient + 1

/-- A signed integer from a sign and a magnitude. -/
def signed (negative : Bool) (n : Nat) : Int :=
  if negative then -(n : Int) else n

/-- The integer part of a finite double: the fraction is dropped, toward zero. -/
def truncate (x : Float) : Int :=
  let p := parts x
  signed p.negative <|
    if 0 ≤ p.exponent then p.mantissa * Nat.pow 2 p.exponent.toNat
    else p.mantissa / Nat.pow 2 (-p.exponent).toNat

/-- The integer nearest a finite double; a half goes to the even neighbour. -/
def roundHalfEven (x : Float) : Int :=
  let p := parts x
  signed p.negative <|
    if 0 ≤ p.exponent then p.mantissa * Nat.pow 2 p.exponent.toNat
    else halfEvenShift p.mantissa (-p.exponent).toNat

/-- The whole double below or at `x`; infinities and NaN are their own floor. -/
def floor (x : Float) : Float :=
  if x.isFinite then
    let n := truncate x
    ofInt (if x < ofInt n then n - 1 else n)
  else x

/-! ## Remainder and quotient -/

/-- The exact remainder of `x / y`, with the sign of `x`, as the processor's `fmod` gives it. -/
def remainder (x y : Float) : Float :=
  if x.isNaN || y.isNaN || x.isInf || y == 0 then 0.0 / 0.0
  else if y.isInf then x
  else
    let p := parts x
    let q := parts y
    let low := min p.exponent q.exponent
    let m := p.mantissa * Nat.pow 2 (p.exponent - low).toNat
      % (q.mantissa * Nat.pow 2 (q.exponent - low).toNat)
    let magnitude := ofNat m * powerOfTwo low
    if p.negative then -magnitude else magnitude

/-- The sign of `y` put on zero. -/
def zeroLike (y : Float) : Float :=
  if (parts y).negative then -0.0 else 0.0

/-- The quotient `x / y` rounded down, computed from the exact remainder: the remainder is
subtracted first, so the division is of a multiple of `y`. -/
def floorQuotient (x y : Float) : Float :=
  let rest := remainder x y
  let quotient := (x - rest) / y
  let opposite := rest != 0 && decide (y < 0) != decide (rest < 0)
  let quotient := if opposite then quotient - 1 else quotient
  if quotient != 0 then
    let whole := floor quotient
    if quotient - whole > 0.5 then whole + 1 else whole
  else zeroLike (x / y)

end Double

end TradeRules
