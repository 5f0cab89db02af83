import TradeRules.Proofs.Double.Monotone

/-!
# When a result is a number

Arithmetic of doubles gives NaN only where infinities meet each other or zero.  A finite operand keeps
a sum and a difference a number (`isNaN_add`, `isNaN_sub`), a finite divisor that is not zero a quotient
(`isNaN_div`).  So the quotient of two finite doubles rounded down is a number too
(`isNaN_floorQuotient`).  It may be infinite, but only when the quotient is (`isFinite_floorQuotient`).
A NaN operand is never lost (`isNaN_of_floorQuotient`).

Doubles that are numbers are in order, and a test that fails tells which way round
(`le_of_not_lt`, `lt_of_not_le`).  For finite operands that makes taking a number away monotone
(`sub_mono_left`).
-/

namespace TradeRules

namespace Double

open Float.Model Float.Model.UnpackedFloat

variable {x y z : Float} {u v : UnpackedFloat} {p q : ℚ}

/-! ## Order -/

theorem le_of_not_lt (hx : x.isNaN = false) (hy : y.isNaN = false) (h : ¬x < y) : y ≤ x := by
  rw [lt_iff_extended hx hy, not_lt] at h
  exact (le_iff_extended hy hx).mpr h

protected theorem le_trans (h : x ≤ y) (h' : y ≤ z) : x ≤ z := by
  obtain ⟨hx, hy⟩ := isNaN_of_le h
  have hz := (isNaN_of_le h').2
  rw [le_iff_extended hx hy] at h
  rw [le_iff_extended hy hz] at h'
  exact (le_iff_extended hx hz).mpr (h.trans h')

/-- Numbers that stand for the same are at most the same doubles. -/
theorem le_congr_left (hx : x.isNaN = false) (hy : y.isNaN = false) (h : extended x = extended y) :
    x ≤ z ↔ y ≤ z :=
  ⟨Double.le_trans ((le_iff_extended hy hx).mpr h.ge), Double.le_trans ((le_iff_extended hx hy).mpr h.le)⟩

theorem lt_of_not_le (hx : x.isNaN = false) (hy : y.isNaN = false) (h : ¬x ≤ y) : y < x := by
  rw [le_iff_extended hx hy, not_le] at h
  exact (lt_iff_extended hy hx).mpr h

/-! ## Packing -/

theorem isNaN_pack (hc : Canonical u) (hu : u.isNaN = false) :
    (UnpackedFloat.unpack Format.binary64 (UnpackedFloat.pack Format.binary64 u)).isNaN = false := by
  cases u with
  | notANumber => cases hu
  | infinity s => rw [unpack_pack (u := .infinity s) trivial trivial]; rfl
  | zero s => rw [unpack_pack (u := .zero s) trivial trivial]; rfl
  | finite s m e hm =>
    rcases le_or_gt e 971 with he | he
    · rw [unpack_pack hc he]
      rfl
    · rw [unpack_pack_overflow hm he]
      rfl

theorem Stands.isNaN_pack (h : Stands u q) :
    (UnpackedFloat.unpack Format.binary64 (UnpackedFloat.pack Format.binary64 u)).isNaN = false := by
  refine Double.isNaN_pack h.canonical ?_
  have hu := h.finite
  cases u with
  | notANumber => cases hu
  | infinity s => rfl
  | zero s => rfl
  | finite s m e hm => rfl

theorem isNaN_pack_infinity (s : Sign) :
    (UnpackedFloat.unpack Format.binary64
      (UnpackedFloat.pack Format.binary64 (.infinity s))).isNaN = false :=
  isNaN_pack (u := .infinity s) trivial rfl

/-! ## Operations -/

/-- A number and a finite double have a sum. -/
theorem isNaN_add (hx : x.isNaN = false) (hy : y.isFinite = true) : (x + y).isNaN = false := by
  have hc := canonical_model x
  have hc' := canonical_model y
  change x.toModel.unpack.isNaN = false at hx
  change y.toModel.unpack.isFinite = true at hy
  show (UnpackedFloat.unpack Format.binary64 (UnpackedFloat.pack Format.binary64
    (UnpackedFloat.add Format.binary64 x.toModel.unpack y.toModel.unpack))).isNaN = false
  generalize x.toModel.unpack = u at hx hc
  generalize y.toModel.unpack = v at hy hc'
  have hfinite : u.isFinite = true →
      (UnpackedFloat.unpack Format.binary64 (UnpackedFloat.pack Format.binary64
        (UnpackedFloat.add Format.binary64 u v))).isNaN = false := fun hu =>
    (add_stands hc hc' hu hy).isNaN_pack
  cases u with
  | notANumber => cases hx
  | infinity s =>
    cases v with
    | notANumber => cases hy
    | infinity t => cases hy
    | zero t => exact isNaN_pack_infinity s
    | finite t n f hn => exact isNaN_pack_infinity s
  | zero s => exact hfinite rfl
  | finite s m e hm => exact hfinite rfl

theorem neg_isNaN (x : Float) : (-x).isNaN = x.isNaN := by
  show (-x).toModel.unpack.isNaN = x.toModel.unpack.isNaN
  rw [unpack_neg]
  cases x.toModel.unpack <;> rfl

theorem neg_neg_unpacked (u : UnpackedFloat) : u.neg.neg = u := by
  have hsign : ∀ s : Sign, - -s = s := fun s => by cases s <;> rfl
  cases u <;> simp only [UnpackedFloat.neg, hsign]

/-- The negation of a negative number is positive. -/
theorem zero_lt_neg (h : x < 0.0) : 0.0 < -x := by
  obtain ⟨hx, hzero⟩ := isNaN_of_lt h
  have hneg : (-x).isNaN = false := by rw [neg_isNaN, hx]
  rw [lt_iff_extended hx hzero, extended_zero] at h
  rw [lt_iff_extended hzero hneg, extended_zero, ← not_le]
  intro hle
  have hturned := extendedOf_neg_le (u := (-x).toModel.unpack) (v := .zero .positive) hneg rfl hle
  rw [unpack_neg, neg_neg_unpacked] at hturned
  exact absurd h (not_lt.mpr hturned)

theorem not_le_of_lt (h : x < y) : ¬y ≤ x := fun hle => not_lt_of_le hle h

/-- A finite double less a number is a number. -/
theorem isNaN_sub (hx : x.isFinite = true) (hy : y.isNaN = false) : (x - y).isNaN = false := by
  rw [sub_eq_add, add_swap]
  exact isNaN_add (by rw [neg_isNaN, hy]) hx

/-- Rounding a number up to one that is rounded to a finite double gives a finite double. -/
theorem IsRounding.isFinite_mono (hz : IsRounding z p) (h0 : 0 ≤ p) (hpq : p ≤ q)
    (hrange : InRange (nearest q)) : z.isFinite = true := by
  refine hz.finite_iff.mpr ?_
  unfold InRange at hrange ⊢
  rw [abs_of_nonneg (nearest_nonneg (h0.trans hpq))] at hrange
  rw [abs_of_nonneg (nearest_nonneg h0)]
  exact (nearest_mono hpq).trans_lt hrange

/-- Rounding a number between two doubles gives a double between them. -/
theorem IsRounding.within (hz : IsRounding z p) (hx : exact x ≤ p) (hy : p ≤ exact y) :
    z.isFinite = true ∧ exact x ≤ exact z ∧ exact z ≤ exact y := by
  have hlow := nearest_mono hx
  have hhigh := nearest_mono hy
  rw [nearest_exact] at hlow hhigh
  have hfin : z.isFinite = true :=
    hz.finite_iff.mpr (abs_lt.mpr ⟨(abs_lt.mp (inRange_exact x)).1.trans_le hlow,
      hhigh.trans_lt (abs_lt.mp (inRange_exact y)).2⟩)
  rw [hz.value hfin]
  exact ⟨hfin, hlow, hhigh⟩

/-- A number taken away leaves no less of what is no less. -/
theorem sub_mono_left (hx : x.isFinite = true) (hy : y.isFinite = true) (hz : z.isNaN = false)
    (h : x ≤ y) : x - z ≤ y - z :=
  le_of_not_lt (isNaN_sub hy hz) (isNaN_sub hx hz) (not_sub_lt (not_lt_of_le h) (not_lt_self z))

/-- Nothing is left of a number when one that is no less is taken away. -/
theorem sub_le_zero_of_le (hx : x.isFinite = true) (hy : y.isFinite = true) (h : x ≤ y) : x - y ≤ 0.0 := by
  obtain ⟨hself, hzero⟩ := sub_self_exact hy
  have hle := sub_mono_left hx hy (isNaN_of_isFinite hy) h
  rw [le_iff_extended (isNaN_of_le hle).1 (isNaN_of_le hle).2, extended_of_isFinite hself, hzero] at hle
  rw [le_iff_extended (isNaN_sub hx (isNaN_of_isFinite hy)) (isNaN_of_isFinite zero_exact.1),
    extended_of_isFinite zero_exact.1, zero_exact.2]
  exact hle

/-- If something is left of a finite double when a positive one is taken away, that is finite. -/
theorem isFinite_sub_of_pos (hx : x.isFinite = true) (hy : y.isFinite = true) (hpos : 0.0 < y)
    (h : ¬x - y ≤ 0.0) : (x - y).isFinite = true := by
  have hlt : exact y < exact x := by
    rw [← lt_iff_exact hy hx]
    exact lt_of_not_le (isNaN_of_isFinite hx) (isNaN_of_isFinite hy) fun hle =>
      h (sub_le_zero_of_le hx hy hle)
  rw [lt_iff_exact zero_exact.1 hy, zero_exact.2] at hpos
  exact (sub_isRounding hx hy).isFinite_mono (sub_nonneg.mpr hlt.le) (sub_le_self _ hpos.le)
    (by rw [nearest_exact]; exact inRange_exact x)

/-- A number that is not zero has a product with a finite double that is not. -/
theorem isNaN_mul (hx : x.isFinite = true) (hx0 : exact x ≠ 0) (hy : y.isNaN = false) :
    (x * y).isNaN = false := by
  have hc := canonical_model x
  have hc' := canonical_model y
  unfold exact at hx0
  change x.toModel.unpack.isFinite = true at hx
  change y.toModel.unpack.isNaN = false at hy
  show (UnpackedFloat.unpack Format.binary64 (UnpackedFloat.pack Format.binary64
    (UnpackedFloat.mul Format.binary64 x.toModel.unpack y.toModel.unpack))).isNaN = false
  generalize x.toModel.unpack = u at hx hx0 hc
  generalize y.toModel.unpack = v at hy hc'
  have hfinite : v.isFinite = true →
      (UnpackedFloat.unpack Format.binary64 (UnpackedFloat.pack Format.binary64
        (UnpackedFloat.mul Format.binary64 u v))).isNaN = false := fun hv =>
    (mul_stands hc hc' hx hv).isNaN_pack
  cases v with
  | notANumber => cases hy
  | infinity t =>
    cases u with
    | notANumber => cases hx
    | infinity s => cases hx
    | zero s => exact absurd rfl hx0
    | finite s m e hm => exact isNaN_pack_infinity (s * t)
  | zero t => exact hfinite rfl
  | finite t n f hn => exact hfinite rfl

/-- A number has a quotient by a finite double that is not zero. -/
theorem isNaN_div (hx : x.isNaN = false) (hy : y.isFinite = true) (hy0 : exact y ≠ 0) :
    (x / y).isNaN = false := by
  unfold exact at hy0
  change x.toModel.unpack.isNaN = false at hx
  change y.toModel.unpack.isFinite = true at hy
  show (UnpackedFloat.unpack Format.binary64 (UnpackedFloat.pack Format.binary64
    (UnpackedFloat.div Format.binary64 x.toModel.unpack y.toModel.unpack))).isNaN = false
  generalize x.toModel.unpack = u at hx
  generalize y.toModel.unpack = v at hy hy0
  have hfinite : u.isFinite = true →
      (UnpackedFloat.unpack Format.binary64 (UnpackedFloat.pack Format.binary64
        (UnpackedFloat.div Format.binary64 u v))).isNaN = false := fun hu =>
    (div_stands hu hy hy0).isNaN_pack
  cases u with
  | notANumber => cases hx
  | infinity s =>
    cases v with
    | notANumber => cases hy
    | infinity t => cases hy
    | zero t => exact absurd rfl hy0
    | finite t n f hn => exact isNaN_pack_infinity (s / t)
  | zero s => exact hfinite rfl
  | finite s m e hm => exact hfinite rfl

/-- Of two natural numbers the smaller is finite as a double if the larger is. -/
theorem isFinite_ofNat_mono {m n : ℕ} (hmn : m ≤ n) (h : (ofNat n).isFinite = true) :
    (ofNat m).isFinite = true :=
  (ofNat_isRounding m).isFinite_mono (Nat.cast_nonneg m) (by exact_mod_cast hmn)
    ((ofNat_isRounding n).finite_iff.mp h)

theorem isNaN_of_sub (h : (x - y).isNaN = false) : x.isNaN = false ∧ y.isNaN = false := by
  rw [sub_eq_add] at h
  obtain ⟨hx, hy⟩ := isNaN_of_add h
  exact ⟨hx, isNaN_of_neg hy⟩

theorem isNaN_of_div (h : (x / y).isNaN = false) : x.isNaN = false ∧ y.isNaN = false := by
  have hu := isNaN_of_pack (u := .div .binary64 x.toModel.unpack y.toModel.unpack) h
  show x.toModel.unpack.isNaN = false ∧ y.toModel.unpack.isNaN = false
  generalize x.toModel.unpack = u, y.toModel.unpack = v at hu
  cases u <;> cases v <;> first | exact ⟨rfl, rfl⟩ | cases hu

/-- A whole number that is not zero is no zero as a double. -/
theorem ofInt_exact_ne_zero {n : ℤ} (hn : n ≠ 0) (h : (ofInt n).isFinite = true) :
    exact (ofInt n) ≠ 0 := by
  rw [(ofInt_isRounding n).value h]
  rcases lt_or_gt_of_ne hn with hneg | hpos
  · have hle : nearest n ≤ ((-1 : ℤ) : ℚ) := by
      rw [← nearest_of_int (n := -1) (by norm_num)]
      exact nearest_mono (by exact_mod_cast (show n ≤ -1 by omega))
    intro hzero
    rw [hzero] at hle
    norm_num at hle
  · have hle : ((1 : ℤ) : ℚ) ≤ nearest n := by
      rw [← nearest_of_int (n := 1) (by norm_num)]
      exact nearest_mono (by exact_mod_cast (show 1 ≤ n by omega))
    intro hzero
    rw [hzero] at hle
    norm_num at hle

/-! ## Quotients rounded down -/

/-- What is rounded down to a number is a number. -/
theorem isNaN_of_roundDown (h : (roundDown x z).isNaN = false) : x.isNaN = false := by
  by_contra hx
  rw [Bool.not_eq_false] at hx
  have hfinite : x.isFinite = false := by
    rw [← Bool.not_eq_true]
    intro hfin
    rw [isNaN_of_isFinite hfin] at hx
    cases hx
  have hfloor : floor x = x := if_neg (by rw [hfinite]; exact Bool.false_ne_true)
  have hne : (x != 0) = true := by
    rw [bne, Bool.not_eq_true', ← Bool.not_eq_true]
    intro hbeq
    rw [(isNaN_of_beq hbeq).1] at hx
    cases hx
  rw [roundDown, if_pos hne] at h
  simp only [hfloor] at h
  split_ifs at h
  · rw [(isNaN_of_add h).1] at hx
    cases hx
  · rw [h] at hx
    cases hx

/-- A quotient rounded down is a number only by a number. -/
theorem isNaN_of_floorQuotient (h : (floorQuotient x y).isNaN = false) : y.isNaN = false := by
  have hquotient := isNaN_of_roundDown (floorQuotient_eq x y ▸ h)
  unfold multipleQuotient at hquotient
  dsimp only at hquotient
  split_ifs at hquotient
  · exact (isNaN_of_div (isNaN_of_sub hquotient).1).2
  · exact (isNaN_of_div hquotient).2

/-- A number that is not negative is rounded down to a number. -/
theorem isNaN_roundDown (hx : x.isNaN = false) (h0 : x.isFinite = true → 0 ≤ exact x)
    (hz : z.isNaN = false) : (roundDown x z).isNaN = false := by
  have hfloor : (floor x).isNaN = false := by
    by_cases hfin : x.isFinite = true
    · rw [floor_of_nonneg hfin (h0 hfin)]
      exact isNaN_of_isFinite (ofInt_truncate hfin).1
    · rw [floor, if_neg hfin]
      exact hx
  unfold roundDown
  split_ifs with hne
  · dsimp only
    split_ifs
    · rw [one_eq]
      exact isNaN_add hfloor one_exact.1
    · exact hfloor
  · exact hz

theorem isNaN_zeroLike (x : Float) : (zeroLike x).isNaN = false := by
  unfold zeroLike
  split_ifs
  · decide +kernel
  · decide +kernel

/-- The quotient of finite doubles rounded down is a number. -/
theorem isNaN_floorQuotient (hx : x.isFinite = true) (hy : y.isFinite = true) (hx0 : 0.0 ≤ x)
    (hy0 : ¬y ≤ 0.0) : (floorQuotient x y).isNaN = false := by
  have hx0' : 0 ≤ exact x := by rwa [le_iff_exact zero_exact.1 hx, zero_exact.2] at hx0
  have hy0' : 0 < exact y := by
    rw [le_iff_exact hy zero_exact.1, zero_exact.2] at hy0
    exact not_le.mp hy0
  have hrest := (remainder_bounds hx hy hx0' hy0').1
  have hquotient : ((x - remainder x y) / y).isNaN = false :=
    isNaN_div (isNaN_sub hx (isNaN_of_isFinite hrest)) hy hy0'.ne'
  have hmultiple : (multipleQuotient x y).isNaN = false := by
    unfold multipleQuotient
    dsimp only
    split_ifs
    · rw [one_eq, sub_eq_add]
      exact isNaN_add hquotient (by rw [neg_isFinite]; exact one_exact.1)
    · exact hquotient
  rw [floorQuotient_eq]
  exact isNaN_roundDown hmultiple (multipleQuotient_nonneg hx0 hy0) (isNaN_zeroLike _)

/-- A finite double with a fraction is less than the double of a mantissa. -/
theorem exact_lt_of_fraction (hx : x.isFinite = true) (h0 : 0 ≤ exact x) (h : (⌊exact x⌋ : ℚ) ≠ exact x) :
    exact x < 2 ^ 53 := by
  have hvalue : exact x = (parts x).mantissa * 2 ^ (parts x).exponent := by
    rw [← abs_exact_eq hx, abs_of_nonneg h0]
  have hmantissa : ((parts x).mantissa : ℚ) < 2 ^ 53 := by exact_mod_cast parts_mantissa_lt x
  rcases le_or_gt 0 (parts x).exponent with hexponent | hexponent
  · obtain ⟨k, hk⟩ := Int.eq_ofNat_of_zero_le hexponent
    have hwhole : exact x = (((parts x).mantissa * 2 ^ k : ℕ) : ℤ) := by
      rw [hvalue, hk, zpow_natCast]
      push_cast
      rfl
    rw [hwhole, Int.floor_intCast] at h
    exact absurd rfl h
  · calc exact x = (parts x).mantissa * 2 ^ (parts x).exponent := hvalue
      _ ≤ (parts x).mantissa * 1 :=
          mul_le_mul_of_nonneg_left (zpow_le_one_of_nonpos₀ (by norm_num) hexponent.le) (Nat.cast_nonneg _)
      _ < 2 ^ 53 := by rwa [mul_one]

/-- There is a greatest double below one. -/
theorem exact_le_of_lt_one (hx : x.isFinite = true) (h0 : 0 ≤ exact x) (h : exact x < 1) :
    exact x ≤ 1 - 1 / 2 ^ 53 := by
  have hvalue : exact x = (parts x).mantissa * 2 ^ (parts x).exponent := by
    rw [← abs_exact_eq hx, abs_of_nonneg h0]
  have hmantissa : (parts x).mantissa + 1 ≤ 2 ^ 53 := parts_mantissa_lt x
  have hscaled : exact x * 2 ^ 53 ≤ 2 ^ 53 - 1 := by
    rcases le_or_gt (-53) (parts x).exponent with hexponent | hexponent
    · -- Then the scaled number is whole.
      obtain ⟨k, hk⟩ := Int.eq_ofNat_of_zero_le (show 0 ≤ (parts x).exponent + 53 by omega)
      have hwhole : exact x * 2 ^ 53 = ((parts x).mantissa * 2 ^ k : ℕ) := by
        have hpow : (2 : ℚ) ^ (parts x).exponent * 2 ^ 53 = 2 ^ k := by
          rw [← zpow_natCast 2 53, ← zpow_add₀ (by norm_num), ← zpow_natCast, ← hk]
          rfl
        rw [hvalue, mul_assoc, hpow]
        push_cast
        rfl
      have hlt : (parts x).mantissa * 2 ^ k < 2 ^ 53 := by
        have hlt : exact x * 2 ^ 53 < 2 ^ 53 := by linarith
        rw [hwhole] at hlt
        exact_mod_cast hlt
      rw [hwhole]
      have hle : (((parts x).mantissa * 2 ^ k + 1 : ℕ) : ℚ) ≤ (2 ^ 53 : ℕ) := by exact_mod_cast hlt
      push_cast at hle ⊢
      linarith
    · have hpow : (2 : ℚ) ^ (parts x).exponent * 2 ^ 53 ≤ 1 := by
        rw [← zpow_natCast 2 53, ← zpow_add₀ (by norm_num)]
        exact zpow_le_one_of_nonpos₀ (by norm_num) (by push_cast; omega)
      have hle : (((parts x).mantissa + 1 : ℕ) : ℚ) ≤ (2 ^ 53 : ℕ) := by exact_mod_cast hmantissa
      calc exact x * 2 ^ 53 = ((parts x).mantissa : ℚ) * (2 ^ (parts x).exponent * 2 ^ 53) := by
            rw [hvalue, mul_assoc]
        _ ≤ ((parts x).mantissa : ℚ) * 1 := mul_le_mul_of_nonneg_left hpow (Nat.cast_nonneg _)
        _ ≤ 2 ^ 53 - 1 := by push_cast at hle; linarith
  linarith

/-- A finite double that is not negative is rounded down to a finite one. -/
theorem isFinite_roundDown (hx : x.isFinite = true) (h0 : 0 ≤ exact x) (hz : z.isFinite = true) :
    (roundDown x z).isFinite = true := by
  obtain ⟨hwhole, hval⟩ := ofInt_truncate hx
  rw [towardZero, if_pos h0] at hval
  unfold roundDown
  split_ifs with hne
  · dsimp only
    rw [floor_of_nonneg hx h0]
    split_ifs with hhalf
    · have hfraction : (⌊exact x⌋ : ℚ) ≠ exact x := by
        intro hsame
        have hdiff := sub_isRounding hx hwhole
        rw [hval, hsame, sub_self] at hdiff
        obtain ⟨hfin, hzero⟩ := hdiff.of_grid nearest_zero (by norm_num [InRange])
        have hhalf0 : (0.0 : Float) < 0.5 := by decide +kernel
        have hhalffin : (0.5 : Float).isFinite = true := by decide +kernel
        change 0.5 < x - ofInt (truncate x) at hhalf
        rw [lt_iff_exact hhalffin hfin, hzero] at hhalf
        rw [lt_iff_exact zero_exact.1 hhalffin, zero_exact.2] at hhalf0
        exact absurd hhalf hhalf0.le.not_gt
      have hlow : 0 ≤ ⌊exact x⌋ := Int.floor_nonneg.mpr h0
      have hhigh : ⌊exact x⌋ < 2 ^ 53 :=
        Int.floor_lt.mpr (by exact_mod_cast exact_lt_of_fraction hx h0 hfraction)
      rw [one_eq]
      have hsum := add_isRounding hwhole one_exact.1
      rw [hval, one_exact.2, ← Int.cast_one, ← Int.cast_add] at hsum
      exact (hsum.of_int (by rw [abs_of_nonneg (by omega)]; omega)).1
    · exact hwhole
  · exact hz

/-- The quotient of finite doubles rounded down is finite if the quotient is. -/
theorem isFinite_floorQuotient (hx : x.isFinite = true) (hy : y.isFinite = true) (hx0 : 0.0 ≤ x)
    (hy0 : ¬y ≤ 0.0) (h : (x / y).isFinite = true) : (floorQuotient x y).isFinite = true := by
  have hx0' : 0 ≤ exact x := by rwa [le_iff_exact zero_exact.1 hx, zero_exact.2] at hx0
  have hy0' : 0 < exact y := by
    rw [le_iff_exact hy zero_exact.1, zero_exact.2] at hy0
    exact not_le.mp hy0
  obtain ⟨hrest, hlow, hhigh⟩ := remainder_bounds hx hy hx0' hy0'
  -- Taking the remainder away makes the dividend smaller, and with it the quotient.
  have hround := sub_isRounding hx hrest
  have hdiff : (x - remainder x y).isFinite = true :=
    hround.isFinite_mono (sub_nonneg.mpr hhigh) (sub_le_self _ hlow)
      (by rw [nearest_exact]; exact inRange_exact x)
  have hle : exact (x - remainder x y) ≤ exact x := by
    rw [hround.value hdiff]
    exact (nearest_mono (sub_le_self _ hlow)).trans_eq (nearest_exact x)
  have hge : 0 ≤ exact (x - remainder x y) := by
    rw [hround.value hdiff]
    exact nearest_nonneg (sub_nonneg.mpr hhigh)
  have hquotient : ((x - remainder x y) / y).isFinite = true :=
    (div_isRounding hdiff hy hy0'.ne').isFinite_mono (div_nonneg hge hy0'.le)
      (div_le_div_of_nonneg_right hle hy0'.le) ((div_isRounding hx hy hy0'.ne').finite_iff.mp h)
  have hmultiple : (multipleQuotient x y).isFinite = true := by
    have hrest0 : ¬remainder x y < 0 := by
      rw [zero_eq, lt_iff_exact hrest zero_exact.1, zero_exact.2]
      exact not_lt.mpr hlow
    have hy0'' : ¬y < 0 := fun hlt => hy0 (zero_eq ▸ le_of_lt hlt)
    unfold multipleQuotient
    simpa [hy0'', hrest0] using hquotient
  have hzero : (zeroLike (x / y)).isFinite = true := by
    unfold zeroLike
    split_ifs
    · decide +kernel
    · decide +kernel
  rw [floorQuotient_eq]
  exact isFinite_roundDown hmultiple (multipleQuotient_nonneg hx0 hy0 hmultiple) hzero

end Double

end TradeRules
