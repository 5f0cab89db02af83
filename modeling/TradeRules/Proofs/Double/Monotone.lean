import TradeRules.Proofs.Double.Quotient
import TradeRules.Proofs.Double.Extended

/-!
# Arithmetic of doubles is monotone

A sum of doubles is the rounding of the sum of what they stand for, infinities included
(`extended_add`), and rounding is monotone.  So larger operands give no smaller sum (`not_add_lt`), less
taken away leaves no less (`not_sub_lt`), and what is at least a number stays at least zero when that
number is taken away (`not_sub_lt_zero`).

The statements are of the form `¬x < y`, which is what a test of doubles can find out.  It also holds when
one of the two is NaN, so nothing is assumed of the operands.
-/

namespace TradeRules

namespace Double

open Float.Model Float.Model.UnpackedFloat

variable {x y z a b : Float} {u v : UnpackedFloat} {p q : ℚ}

/-! ## Rounding with overflow -/

/-- The least number that is too large for a double. -/
def overflow : ℚ :=
  2 ^ 1024

theorem overflow_pos : 0 < overflow := by
  unfold overflow
  positivity

/-- The double that a rational number is rounded to, as what it stands for. -/
def roundedRat (q : ℚ) : Extended :=
  if overflow ≤ nearest q then ⊤
  else if nearest q ≤ -overflow then ⊥
  else ((nearest q : WithTop ℚ) : Extended)

/-- Rounding leaves infinities as they are. -/
def rounded : Extended → Extended
  | ⊥ => ⊥
  | ((⊤ : WithTop ℚ) : Extended) => ⊤
  | (((q : ℚ) : WithTop ℚ) : Extended) => roundedRat q

theorem roundedRat_of_inRange (h : InRange (nearest q)) :
    roundedRat q = ((nearest q : WithTop ℚ) : Extended) := by
  have hrange : -overflow < nearest q ∧ nearest q < overflow := abs_lt.mp h
  rw [roundedRat, if_neg (not_le.mpr hrange.2), if_neg (not_le.mpr hrange.1)]

theorem roundedRat_mono (h : p ≤ q) : roundedRat p ≤ roundedRat q := by
  have hnear := nearest_mono h
  unfold roundedRat
  split_ifs with h1 h2 h3 h4 h5 h6 h7
  all_goals first
    | exact le_rfl
    | exact le_top
    | exact bot_le
    | (exfalso; linarith)
    | exact WithBot.coe_le_coe.mpr (WithTop.coe_le_coe.mpr hnear)

theorem rounded_mono {e f : Extended} (h : e ≤ f) : rounded e ≤ rounded f := by
  induction e using WithBot.recBotCoe with
  | bot => exact bot_le
  | coe e =>
    induction f using WithBot.recBotCoe with
    | bot => exact absurd h (WithBot.not_coe_le_bot e)
    | coe f =>
      have h' := WithBot.coe_le_coe.mp h
      induction f using WithTop.recTopCoe with
      | top => exact le_top
      | coe q =>
        induction e using WithTop.recTopCoe with
        | top => exact absurd h' (WithTop.not_top_le_coe q)
        | coe p => exact roundedRat_mono (WithTop.coe_le_coe.mp h')

/-- A number that a double stands for is not changed. -/
theorem rounded_exact (x : Float) :
    rounded ((exact x : WithTop ℚ) : Extended) = ((exact x : WithTop ℚ) : Extended) := by
  have h := roundedRat_of_inRange (q := exact x) (by rw [nearest_exact]; exact inRange_exact x)
  rwa [nearest_exact] at h

/-- What an unpacked number is packed to. -/
theorem extendedOf_pack (h : Stands u q) :
    extendedOf (UnpackedFloat.unpack Format.binary64 (UnpackedFloat.pack Format.binary64 u)) =
      roundedRat q := by
  have hfinite := isFinite_unpack_pack h.canonical h.finite
  rw [h.value] at hfinite
  have hvalue := h.value
  cases u with
  | notANumber => cases h.finite
  | infinity s => cases h.finite
  | zero s =>
    rw [roundedRat_of_inRange (hfinite.mp (by cases s <;> rfl)), ← hvalue]
    exact congrArg extendedOf (unpack_pack (u := .zero s) trivial trivial)
  | finite s m e hm =>
    rcases le_or_gt e 971 with he | he
    · rw [unpack_pack h.canonical he] at hfinite ⊢
      rw [roundedRat_of_inRange (hfinite.mp rfl), ← hvalue]
      rfl
    · rw [unpack_pack_overflow hm he] at hfinite ⊢
      have hlarge : overflow ≤ |nearest q| := not_lt.mp fun hlt => by cases hfinite.mpr hlt
      have hpos := overflow_pos
      have hm' := mantissa_pos hm e
      rw [magnitude_of_finite] at hvalue
      cases s with
      | negative =>
        have hneg : nearest q < 0 := by
          rw [← hvalue, Sign.apply]
          push_cast
          linarith
        rw [abs_of_neg hneg] at hlarge
        rw [roundedRat, if_neg (by linarith), if_pos (by linarith)]
        rfl
      | positive =>
        have hpos' : 0 < nearest q := by
          rw [← hvalue, Sign.apply]
          exact_mod_cast hm'
        rw [abs_of_pos hpos'] at hlarge
        rw [roundedRat, if_pos hlarge]
        rfl

theorem isNaN_of_pack
    (h : (UnpackedFloat.unpack Format.binary64 (UnpackedFloat.pack Format.binary64 u)).isNaN = false) :
    u.isNaN = false := by
  cases u with
  | notANumber => cases h
  | infinity s => rfl
  | zero s => rfl
  | finite s m e hm => rfl

/-! ## Comparisons -/

/-- Only numbers are compared. -/
theorem isNaN_of_lt (h : x < y) : x.isNaN = false ∧ y.isNaN = false := by
  change decide (UnpackedFloat.lt x.toModel.unpack y.toModel.unpack = true) = true at h
  rw [decide_eq_true_iff] at h
  show x.toModel.unpack.isNaN = false ∧ y.toModel.unpack.isNaN = false
  generalize x.toModel.unpack = u, y.toModel.unpack = v at h
  cases u <;> cases v <;> first | exact ⟨rfl, rfl⟩ | cases h

theorem isNaN_of_le (h : x ≤ y) : x.isNaN = false ∧ y.isNaN = false := by
  change decide (UnpackedFloat.le x.toModel.unpack y.toModel.unpack = true) = true at h
  rw [decide_eq_true_iff] at h
  show x.toModel.unpack.isNaN = false ∧ y.toModel.unpack.isNaN = false
  generalize x.toModel.unpack = u, y.toModel.unpack = v at h
  cases u <;> cases v <;> first | exact ⟨rfl, rfl⟩ | cases h

theorem not_lt_of_le (h : y ≤ x) : ¬x < y := by
  intro hlt
  obtain ⟨hx, hy⟩ := isNaN_of_lt hlt
  rw [lt_iff_extended hx hy] at hlt
  rw [le_iff_extended hy hx] at h
  exact absurd h (not_le.mpr hlt)

theorem extended_of_isFinite (hx : x.isFinite = true) :
    extended x = ((exact x : WithTop ℚ) : Extended) :=
  extendedOf_of_finite hx

theorem extended_zero : extended 0.0 = 0 := by
  rw [extended_of_isFinite zero_exact.1, zero_exact.2]
  rfl

/-- What lies between finite doubles is finite. -/
theorem isFinite_of_between (hx : x.isFinite = true) (hz : z.isFinite = true) (h : x ≤ y)
    (h' : y ≤ z) : y.isFinite = true := by
  have hy : y.isNaN = false := (isNaN_of_le h').1
  rw [le_iff_extended (isNaN_of_isFinite hx) hy, extended_of_isFinite hx] at h
  rw [le_iff_extended hy (isNaN_of_isFinite hz), extended_of_isFinite hz] at h'
  unfold extended at h h'
  change y.toModel.unpack.isNaN = false at hy
  show y.toModel.unpack.isFinite = true
  cases hu : y.toModel.unpack with
  | notANumber =>
    rw [hu] at hy
    cases hy
  | infinity s =>
    rw [hu] at h h'
    cases s with
    | negative => exact absurd h (not_le.mpr (WithBot.bot_lt_coe _))
    | positive => exact absurd h' (not_le.mpr (WithBot.coe_lt_coe.mpr (WithTop.coe_lt_top _)))
  | zero s => rfl
  | finite s m e hm => rfl

/-- What a double stands for is not changed by rounding. -/
theorem rounded_extended (x : Float) : rounded (extended x) = extended x := by
  have hexact := rounded_exact x
  unfold exact at hexact
  unfold extended
  cases hu : x.toModel.unpack with
  | notANumber => rwa [hu] at hexact
  | infinity s => cases s <;> rfl
  | zero s => rwa [hu] at hexact
  | finite s m e hm => rwa [hu] at hexact

theorem not_lt_self (x : Float) : ¬x < x := by
  intro hlt
  rw [lt_iff_extended (isNaN_of_lt hlt).1 (isNaN_of_lt hlt).2] at hlt
  exact lt_irrefl _ hlt

/-! ## Sums -/

/-- An infinity and a number sum up to the infinity. -/
theorem rounded_infinity_add (s : Sign) (hv : v.isFinite = true) :
    rounded (extendedOf (.infinity s) + extendedOf v) = extendedOf (.infinity s) ∧
      rounded (extendedOf v + extendedOf (.infinity s)) = extendedOf (.infinity s) := by
  rw [extendedOf_of_finite hv]
  cases s <;> exact ⟨rfl, rfl⟩

theorem extendedOf_add (hu : Canonical u) (hv : Canonical v)
    (h : (UnpackedFloat.add Format.binary64 u v).isNaN = false) :
    extendedOf (UnpackedFloat.unpack Format.binary64
        (UnpackedFloat.pack Format.binary64 (UnpackedFloat.add Format.binary64 u v))) =
      rounded (extendedOf u + extendedOf v) := by
  have hfinite : u.isFinite = true → v.isFinite = true →
      extendedOf (UnpackedFloat.unpack Format.binary64
          (UnpackedFloat.pack Format.binary64 (UnpackedFloat.add Format.binary64 u v))) =
        rounded (extendedOf u + extendedOf v) := by
    intro fu fv
    rw [extendedOf_pack (add_stands hu hv fu fv), extendedOf_of_finite fu, extendedOf_of_finite fv]
    rfl
  have hinfinite : ∀ s, extendedOf (UnpackedFloat.unpack Format.binary64
      (UnpackedFloat.pack Format.binary64 (.infinity s))) = extendedOf (.infinity s) := fun s =>
    congrArg extendedOf (unpack_pack (u := .infinity s) trivial trivial)
  cases u with
  | notANumber => cases h
  | infinity s =>
    cases v with
    | notANumber => cases h
    | infinity t =>
      cases s with
      | negative =>
        cases t with
        | negative => exact hinfinite .negative
        | positive => cases h
      | positive =>
        cases t with
        | negative => cases h
        | positive => exact hinfinite .positive
    | zero t => exact (hinfinite s).trans (rounded_infinity_add (v := .zero t) s rfl).1.symm
    | finite t n f hn =>
      exact (hinfinite s).trans (rounded_infinity_add (v := .finite t n f hn) s rfl).1.symm
  | zero s =>
    cases v with
    | notANumber => cases h
    | infinity t => exact (hinfinite t).trans (rounded_infinity_add (v := .zero s) t rfl).2.symm
    | zero t => exact hfinite rfl rfl
    | finite t n f hn => exact hfinite rfl rfl
  | finite s m e hm =>
    cases v with
    | notANumber => cases h
    | infinity t =>
      exact (hinfinite t).trans (rounded_infinity_add (v := .finite s m e hm) t rfl).2.symm
    | zero t => exact hfinite rfl rfl
    | finite t n f hn => exact hfinite rfl rfl

/-- A sum of doubles stands for the rounded sum of what they stand for. -/
theorem extended_add (h : (x + y).isNaN = false) :
    extended (x + y) = rounded (extended x + extended y) :=
  extendedOf_add (canonical_model x) (canonical_model y) (isNaN_of_pack h)

theorem isNaN_of_add (h : (x + y).isNaN = false) : x.isNaN = false ∧ y.isNaN = false := by
  have hu := isNaN_of_pack (u := .add .binary64 x.toModel.unpack y.toModel.unpack) h
  show x.toModel.unpack.isNaN = false ∧ y.toModel.unpack.isNaN = false
  generalize x.toModel.unpack = u, y.toModel.unpack = v at hu
  cases u <;> cases v <;> first | exact ⟨rfl, rfl⟩ | cases hu

/-- Larger summands give no smaller sum. -/
theorem not_add_lt (h : ¬x < y) (h' : ¬a < b) : ¬x + a < y + b := by
  intro hlt
  obtain ⟨hxa, hyb⟩ := isNaN_of_lt hlt
  obtain ⟨hx, ha⟩ := isNaN_of_add hxa
  obtain ⟨hy, hb⟩ := isNaN_of_add hyb
  rw [lt_iff_extended hx hy, not_lt] at h
  rw [lt_iff_extended ha hb, not_lt] at h'
  rw [lt_iff_extended hxa hyb, extended_add hxa, extended_add hyb] at hlt
  exact absurd (rounded_mono (add_le_add h h')) (not_le.mpr hlt)

theorem add_unpacked_swap (u v : UnpackedFloat) :
    UnpackedFloat.add Format.binary64 u v = UnpackedFloat.add Format.binary64 v u := by
  cases u with
  | notANumber => cases v <;> rfl
  | infinity s =>
    cases v with
    | infinity t => cases s <;> cases t <;> rfl
    | notANumber => rfl
    | zero t => rfl
    | finite t n f hn => rfl
  | zero s =>
    cases v with
    | zero t => cases s <;> cases t <;> rfl
    | notANumber => rfl
    | infinity t => rfl
    | finite t n f hn => rfl
  | finite s m e hm =>
    cases v with
    | finite t n f hn => simp only [UnpackedFloat.add, min_comm, Int.add_comm]
    | notANumber => rfl
    | infinity t => rfl
    | zero t => rfl

theorem add_swap (x y : Float) : x + y = y + x :=
  congrArg (fun u => Float.ofModel (Float.Model.pack u)) (add_unpacked_swap _ _)

/-- A summand that is not negative makes no sum smaller. -/
theorem not_add_lt_of_nonneg (h : ¬x < y) (ha : ¬a < 0.0) : ¬x + a < y := by
  intro hlt
  obtain ⟨hxa, hy⟩ := isNaN_of_lt hlt
  obtain ⟨hx, ha'⟩ := isNaN_of_add hxa
  rw [lt_iff_extended hx hy, not_lt] at h
  rw [lt_iff_extended ha' (isNaN_of_isFinite zero_exact.1), not_lt, extended_zero] at ha
  rw [lt_iff_extended hxa hy, extended_add hxa, ← rounded_extended y] at hlt
  exact absurd (rounded_mono (le_add_of_le_of_nonneg h ha)) (not_le.mpr hlt)

/-! ## Differences -/

/-- A sum with a positive number is positive, unless it was negative before. -/
theorem not_add_le_zero (hx : ¬x < 0.0) (hy : 0.0 < y) : ¬x + y ≤ 0.0 := by
  intro hle
  obtain ⟨hsum, hzero⟩ := isNaN_of_le hle
  obtain ⟨hxn, hyn⟩ := isNaN_of_add hsum
  rw [lt_iff_extended hxn hzero, not_lt, extended_zero] at hx
  rw [lt_iff_extended hzero hyn, extended_zero] at hy
  rw [le_iff_extended hsum hzero, extended_add hsum, extended_zero] at hle
  have hmono : rounded (extended y) ≤ rounded (extended x + extended y) :=
    rounded_mono (le_add_of_nonneg_left hx)
  rw [rounded_extended] at hmono
  exact absurd (hmono.trans hle) (not_le.mpr hy)

theorem sign_neg_apply (s : Sign) (n : ℤ) : (-s).apply n = -s.apply n := by
  cases s
  · exact (neg_neg n).symm
  · rfl

theorem sub_unpacked (u v : UnpackedFloat) :
    UnpackedFloat.sub Format.binary64 u v = UnpackedFloat.add Format.binary64 u v.neg := by
  cases u with
  | finite s m e hm =>
    cases v with
    | finite t n f hn =>
      simp only [UnpackedFloat.sub, UnpackedFloat.add, UnpackedFloat.neg, sign_neg_apply,
        sub_eq_add_neg]
    | notANumber => rfl
    | infinity t => rfl
    | zero t => rfl
  | notANumber => rfl
  | infinity s => cases v <;> rfl
  | zero s => cases v <;> rfl

/-- A difference is the sum with the negated number. -/
theorem sub_eq_add (x y : Float) : x - y = x + -y := by
  show Float.ofModel (Float.Model.pack (UnpackedFloat.sub Format.binary64 x.toModel.unpack
    y.toModel.unpack)) = Float.ofModel (Float.Model.pack (UnpackedFloat.add Format.binary64
      x.toModel.unpack (-y).toModel.unpack))
  rw [unpack_neg, sub_unpacked]

theorem extendedOf_infinity_le (h : extendedOf (.infinity .positive) ≤ extendedOf u) :
    u = .infinity .positive := by
  have hnot : ∀ q : ℚ, ¬(⊤ : Extended) ≤ ((q : WithTop ℚ) : Extended) := fun q hq =>
    WithTop.not_top_le_coe q (WithBot.coe_le_coe.mp hq)
  cases u with
  | notANumber => exact absurd h (hnot _)
  | infinity s =>
    cases s with
    | negative => exact absurd h (by decide)
    | positive => rfl
  | zero s => exact absurd h (hnot _)
  | finite s m e hm => exact absurd h (hnot _)

/-- Negation turns the order around. -/
theorem extendedOf_neg_le (hu : u.isNaN = false) (hv : v.isNaN = false)
    (h : extendedOf u ≤ extendedOf v) : extendedOf v.neg ≤ extendedOf u.neg := by
  have hfinite : u.isFinite = true → v.isFinite = true → v.neg.isFinite = true →
      u.neg.isFinite = true → extendedOf v.neg ≤ extendedOf u.neg := by
    intro fu fv fv' fu'
    rw [extendedOf_of_finite fu, extendedOf_of_finite fv, WithBot.coe_le_coe,
      WithTop.coe_le_coe] at h
    rw [extendedOf_of_finite fv', extendedOf_of_finite fu', magnitude_neg, magnitude_neg,
      WithBot.coe_le_coe, WithTop.coe_le_coe]
    exact neg_le_neg h
  have hinfinite : ∀ s, u.isFinite = true → v = .infinity s →
      extendedOf v.neg ≤ extendedOf u.neg := by
    rintro s fu rfl
    cases s with
    | negative =>
      rw [extendedOf_of_finite fu] at h
      exact absurd h (WithBot.not_coe_le_bot _)
    | positive => exact bot_le
  cases u with
  | notANumber => cases hu
  | infinity s =>
    cases s with
    | negative => exact le_top
    | positive => rw [extendedOf_infinity_le h]
  | zero s =>
    cases v with
    | notANumber => cases hv
    | infinity t => exact hinfinite t rfl rfl
    | zero t => exact hfinite rfl rfl rfl rfl
    | finite t n f hn => exact hfinite rfl rfl rfl rfl
  | finite s m e hm =>
    cases v with
    | notANumber => cases hv
    | infinity t => exact hinfinite t rfl rfl
    | zero t => exact hfinite rfl rfl rfl rfl
    | finite t n f hn => exact hfinite rfl rfl rfl rfl

theorem isNaN_of_neg (h : (-x).isNaN = false) : x.isNaN = false := by
  change (-x).toModel.unpack.isNaN = false at h
  rw [unpack_neg] at h
  show x.toModel.unpack.isNaN = false
  cases hu : x.toModel.unpack <;> rw [hu] at h <;> first | rfl | cases h

theorem not_neg_lt (h : ¬y < x) : ¬-x < -y := by
  intro hlt
  obtain ⟨hx', hy'⟩ := isNaN_of_lt hlt
  have hx := isNaN_of_neg hx'
  have hy := isNaN_of_neg hy'
  rw [lt_iff_extended hy hx, not_lt] at h
  rw [lt_iff_extended hx' hy', extended, extended, unpack_neg, unpack_neg] at hlt
  exact absurd (extendedOf_neg_le hx hy h) (not_le.mpr hlt)

/-- Less taken away from more leaves no less. -/
theorem not_sub_lt (h : ¬x < y) (h' : ¬b < a) : ¬x - a < y - b := by
  rw [sub_eq_add x, sub_eq_add y]
  exact not_add_lt h (not_neg_lt h')

/-- What is at least a number is not negative without it. -/
theorem zero_le_add_neg (h : extendedOf v ≤ extendedOf u)
    (hadd : (UnpackedFloat.add Format.binary64 u v.neg).isNaN = false) :
    0 ≤ extendedOf u + extendedOf v.neg := by
  have hfinite : v.isFinite = true → v.neg.isFinite = true → 0 ≤ extendedOf u + extendedOf v.neg := by
    intro fv fn
    have hsum : extendedOf v + extendedOf v.neg = 0 := by
      rw [extendedOf_of_finite fv, extendedOf_of_finite fn, magnitude_neg]
      exact congrArg (fun q : ℚ => ((q : WithTop ℚ) : Extended)) (add_neg_cancel _)
    rw [← hsum]
    exact add_le_add h le_rfl
  cases v with
  | notANumber => cases u <;> cases hadd
  | infinity s =>
    cases s with
    | negative =>
      -- Only the infinity of the same sign is not less, and it has no difference with itself.
      cases u with
      | notANumber => cases hadd
      | infinity t =>
        cases t with
        | negative => cases hadd
        | positive => exact (le_top : (0 : Extended) ≤ ⊤)
      | zero t => exact le_top
      | finite t n f hn => exact le_top
    | positive =>
      rw [extendedOf_infinity_le h] at hadd
      cases hadd
  | zero s => exact hfinite rfl rfl
  | finite s m e hm => exact hfinite rfl rfl

/-- What is at least a number stays at least zero when the number is taken away. -/
theorem not_sub_lt_zero (h : ¬x < y) : ¬x - y < 0.0 := by
  intro hlt
  rw [sub_eq_add] at hlt
  obtain ⟨hsum, hzero⟩ := isNaN_of_lt hlt
  obtain ⟨hx, hy⟩ := isNaN_of_add hsum
  have hy' := isNaN_of_neg hy
  have hadd := isNaN_of_pack (u := .add .binary64 x.toModel.unpack (-y).toModel.unpack) hsum
  rw [unpack_neg] at hadd
  rw [lt_iff_extended hx hy', not_lt] at h
  rw [lt_iff_extended hsum hzero, extended_add hsum, ← rounded_extended 0.0, extended_zero] at hlt
  refine absurd (rounded_mono ?_) (not_le.mpr hlt)
  rw [extended, extended, unpack_neg]
  exact zero_le_add_neg h hadd

/-- A fee takes away no more than itself from what is at least a number, when something that is not
negative comes in. -/
theorem not_add_sub_lt (h : ¬x < y) (ha : ¬a < 0.0) : ¬x + (a - b) < y - b := by
  rw [sub_eq_add y b]
  refine not_add_lt h ?_
  rw [sub_eq_add a b, add_swap a]
  exact not_add_lt_of_nonneg (not_lt_self _) ha

/-! ## Products -/

theorem zero_le_coe {q : ℚ} : (0 : Extended) ≤ ((q : WithTop ℚ) : Extended) ↔ 0 ≤ q := by
  rw [show (0 : Extended) = (((0 : ℚ) : WithTop ℚ) : Extended) from rfl, WithBot.coe_le_coe,
    WithTop.coe_le_coe]

theorem sign_of_nonneg {s : Sign} {m : ℕ} {e : ℤ} {hm : 0 < m}
    (h : 0 ≤ extendedOf (.finite s m e hm)) : s = .positive := by
  cases s with
  | positive => rfl
  | negative =>
    have hpos := mantissa_pos hm e
    have hneg := zero_le_coe.mp h
    rw [magnitude_of_finite, Sign.apply] at hneg
    push_cast at hneg
    linarith

theorem zero_le_mul (hu : Canonical u) (hv : Canonical v) (h : 0 ≤ extendedOf u)
    (h' : 0 ≤ extendedOf v) (hmul : (UnpackedFloat.mul Format.binary64 u v).isNaN = false) :
    0 ≤ extendedOf (UnpackedFloat.unpack Format.binary64
      (UnpackedFloat.pack Format.binary64 (UnpackedFloat.mul Format.binary64 u v))) := by
  have hfinite : u.isFinite = true → v.isFinite = true →
      0 ≤ extendedOf (UnpackedFloat.unpack Format.binary64
        (UnpackedFloat.pack Format.binary64 (UnpackedFloat.mul Format.binary64 u v))) := by
    intro fu fv
    rw [extendedOf_of_finite fu, zero_le_coe] at h
    rw [extendedOf_of_finite fv, zero_le_coe] at h'
    rw [extendedOf_pack (mul_stands hu hv fu fv)]
    have hround := roundedRat_mono (mul_nonneg h h')
    have hzero : roundedRat 0 = 0 := by
      have := rounded_extended 0.0
      rwa [extended_zero] at this
    rwa [hzero] at hround
  have hinfinite : 0 ≤ extendedOf (UnpackedFloat.unpack Format.binary64
      (UnpackedFloat.pack Format.binary64 (.infinity .positive))) :=
    (le_top : (0 : Extended) ≤ ⊤)
  cases u with
  | notANumber => cases hmul
  | infinity s =>
    cases s with
    | negative => exact absurd h (by decide)
    | positive =>
      cases v with
      | notANumber => cases hmul
      | infinity t =>
        cases t with
        | negative => exact absurd h' (by decide)
        | positive => exact hinfinite
      | zero t => cases hmul
      | finite t n f hn =>
        obtain rfl := sign_of_nonneg h'
        exact hinfinite
  | zero s =>
    cases v with
    | notANumber => cases hmul
    | infinity t => cases hmul
    | zero t => exact hfinite rfl rfl
    | finite t n f hn => exact hfinite rfl rfl
  | finite s m e hm =>
    cases v with
    | notANumber => cases hmul
    | infinity t =>
      obtain rfl := sign_of_nonneg h
      cases t with
      | negative => exact absurd h' (by decide)
      | positive => exact hinfinite
    | zero t => exact hfinite rfl rfl
    | finite t n f hn => exact hfinite rfl rfl

/-- A product of numbers that are not negative is not negative. -/
theorem not_mul_lt_zero (hx : ¬x < 0.0) (hy : ¬y < 0.0) : ¬x * y < 0.0 := by
  intro hlt
  obtain ⟨hprod, hzero⟩ := isNaN_of_lt hlt
  have hmul := isNaN_of_pack (u := .mul .binary64 x.toModel.unpack y.toModel.unpack) hprod
  have hnan : x.isNaN = false ∧ y.isNaN = false := by
    show x.toModel.unpack.isNaN = false ∧ y.toModel.unpack.isNaN = false
    generalize x.toModel.unpack = u, y.toModel.unpack = v at hmul
    cases u <;> cases v <;> first | exact ⟨rfl, rfl⟩ | cases hmul
  rw [lt_iff_extended hnan.1 hzero, not_lt, extended_zero] at hx
  rw [lt_iff_extended hnan.2 hzero, not_lt, extended_zero] at hy
  rw [lt_iff_extended hprod hzero, extended_zero] at hlt
  exact absurd (zero_le_mul (canonical_model x) (canonical_model y) hx hy hmul) (not_le.mpr hlt)

/-- The double of a whole number that is not negative is not negative. -/
theorem not_ofInt_lt_zero {n : ℤ} (hfin : (ofInt n).isFinite = true) (hn : 0 ≤ n) :
    ¬ofInt n < 0.0 := by
  rw [lt_iff_exact hfin zero_exact.1, zero_exact.2, not_lt, (ofInt_isRounding n).value hfin]
  exact nearest_nonneg (by exact_mod_cast hn)

end Double
end TradeRules
