import TradeRules.Number.Decimal

/-!
# Written forms of numbers

How a double is written is a matter of where it appears.  A `NumberForm` records the choices: how
many digits are taken, from which magnitude on the scientific form is used, and what becomes of the
zeros at the end.

* `NumberForm.literal` is the form of FLOAT literals and of numbers in messages: the shortest digits
  that read back, positional from `0.0001` to below `10 ^ 16`, and always with a point or an
  exponent.
* `NumberForm.general` is the form of FLOAT results on the command line: six significant digits
  without zeros at the end.
* `NumberForm.money` is the form of portfolio values on the command line: two places.
-/

namespace TradeRules

/-- How the digits of a double are chosen. -/
inductive Precision where
  /-- The fewest digits that read back. -/
  | shortest
  /-- A number of significant digits. -/
  | significant (count : Nat)
  /-- A number of places after the point. -/
  | places (count : Nat)
deriving DecidableEq, Repr

/-- The choices that make up a written form. -/
structure NumberForm where
  /-- How many digits are taken. -/
  precision : Precision
  /-- The least power of ten of the first digit that is written positionally. -/
  lowest : Int
  /-- The first power of ten of the first digit that is written scientifically, if any is. -/
  highest : Option Int
  /-- Whether a whole number in positional form ends in `.0`. -/
  pointZero : Bool
  /-- Whether zeros at the end of a fraction are dropped. -/
  dropZeros : Bool
deriving DecidableEq, Repr

namespace NumberForm

/-- FLOAT literals and numbers in messages. -/
def literal : NumberForm :=
  { precision := .shortest, lowest := -4, highest := some 16, pointZero := true, dropZeros := true }

/-- FLOAT results on the command line. -/
def general : NumberForm :=
  { precision := .significant 6, lowest := -4, highest := some 6, pointZero := false,
    dropZeros := true }

/-- Portfolio values on the command line. -/
def money : NumberForm :=
  { precision := .places 2, lowest := -400, highest := none, pointZero := false,
    dropZeros := false }

/-- The decimal a form takes for the magnitude of a finite double. -/
def decimal (form : NumberForm) (x : Float) : Decimal :=
  let d :=
    match form.precision with
    | .shortest => Decimal.shortest x
    | .significant count => Decimal.toSignificant count x
    | .places count => Decimal.toPlaces count x
  if form.dropZeros then Decimal.stripZeros 400 d else d

/-- A decimal in positional form: `whole` or `whole.fraction`. -/
def positional (form : NumberForm) (d : Decimal) : String :=
  if 0 ≤ d.exponent then
    let whole := Decimal.digitChars d.digits ++ List.replicate d.exponent.toNat '0'
    String.ofList (if d.digits = 0 then ['0'] else whole) ++ (if form.pointZero then ".0" else "")
  else
    let places := (-d.exponent).toNat
    let whole := d.digits / Nat.pow 10 places
    let fraction := Decimal.digitChars (d.digits % Nat.pow 10 places)
    let fraction := List.replicate (places - fraction.length) '0' ++ fraction
    String.ofList (Decimal.digitChars whole ++ '.' :: fraction)

/-- The exponent of the scientific form: a sign and at least two digits. -/
def exponentText (k : Int) : String :=
  let digits := Decimal.digitChars k.natAbs
  let digits := List.replicate (2 - digits.length) '0' ++ digits
  String.ofList ((if k < 0 then '-' else '+') :: digits)

/-- A decimal in scientific form: one digit, the rest after a point, and the power of ten. -/
def scientific (d : Decimal) : String :=
  let power := "e" ++ exponentText d.leading
  match Decimal.digitChars d.digits with
  | first :: second :: rest => String.ofList (first :: '.' :: second :: rest) ++ power
  | single => String.ofList single ++ power

/-- The text of a double.  Infinities and NaN have names, and only zero and finite numbers have
digits. -/
def write (form : NumberForm) (x : Float) : String :=
  if x.isNaN then "nan"
  else
    let sign := if (Double.parts x).negative then "-" else ""
    if x.isInf then sign ++ "inf"
    else
      let d := form.decimal x
      let first := d.leading
      let inBand := form.lowest ≤ first && form.highest.all (first < ·)
      sign ++ (if d.digits = 0 || inBand then form.positional d else scientific d)

end NumberForm

/-- The text of a double as a FLOAT literal shows it. -/
def Double.text (x : Float) : String :=
  NumberForm.literal.write x

end TradeRules
