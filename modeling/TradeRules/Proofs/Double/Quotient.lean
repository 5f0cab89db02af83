import TradeRules.Proofs.Double.Whole

/-!
# Remainders and quotients

The remainder of two finite doubles is the rounding of the exact remainder, so it lies between zero
and the dividend when both are positive (`remainder_bounds`).  The quotient rounded down of a
nonnegative double by a positive one is then not negative, unless it is infinite or NaN
(`floorQuotient_nonneg`).
-/

namespace TradeRules

namespace Double

open Float.Model Float.Model.UnpackedFloat

variable {x y z : Float}

/-! ## Powers of two -/

/-- A double is finite unless all bits of its exponent are set. -/
theorem isFinite_of_word (h : (word x).toNat / 2 ^ 52 % 2 ^ 11 ≠ 2047) : x.isFinite = true := by
  show (UnpackedFloat.unpack Format.binary64 (word x)).isFinite = true
  rw [unpack_eq, toNat_unpackExponent, if_neg h]
  split_ifs <;> rfl

/-- The word of a double given by its bits. -/
theorem word_ofBits {n : ℕ} (hn : n < 2 ^ 64) (h : n / 2 ^ 52 % 2 ^ 11 ≠ 2047) :
    (word (Float.ofBits (.ofNat n))).toNat = n := by
  have hbits : (UInt64.ofNat n).toBitVec.toNat = n := by
    rw [UInt64.toNat_toBitVec, UInt64.toNat_ofNat', Nat.mod_eq_of_lt hn]
  have hvalid : Format.binary64.Valid (UInt64.ofNat n).toBitVec := by
    refine ⟨fun hexp => absurd ?_ h⟩
    rw [← hbits, ← toNat_unpackExponent, hexp]
    rfl
  have hword : word (Float.ofBits (.ofNat n)) = (UInt64.ofNat n).toBitVec :=
    pack_unpack_of_valid hvalid
  rw [hword, hbits]

/-- A power of two within the range of exponents is exact. -/
theorem powerOfTwo_exact {e : ℤ} (hlow : -1074 ≤ e) (hhigh : e ≤ 1023) :
    (powerOfTwo e).isFinite = true ∧ exact (powerOfTwo e) = 2 ^ e := by
  have hscale : ∀ {m : ℕ} {f : ℤ}, (signed false (2 ^ m) : ℤ) * (2 : ℚ) ^ f = 2 ^ (m + f) := by
    intro m f
    rw [signed_cast, if_neg Bool.false_ne_true, zpow_add₀ (by norm_num), zpow_natCast]
    push_cast
    rfl
  unfold powerOfTwo
  split_ifs with hnormal
  · obtain ⟨k, hk⟩ := Int.eq_ofNat_of_zero_le (show 0 ≤ e + 1022 by omega)
    have hnat : (e + 1023).toNat = k + 1 := by omega
    rw [hnat, Nat.pow_eq]
    have hword := word_ofBits (n := (k + 1) * 2 ^ 52) (by omega) (by omega)
    have hfin := isFinite_of_word (x := Float.ofBits (.ofNat ((k + 1) * 2 ^ 52)))
      (by rw [hword]; omega)
    have hsign : (k + 1) * 2 ^ 52 / 2 ^ 63 ≠ 1 := by omega
    have hbiased : (k + 1) * 2 ^ 52 / 2 ^ 52 % 2 ^ 11 = k + 1 := by omega
    have hfraction : (k + 1) * 2 ^ 52 % 2 ^ 52 = 0 := by omega
    refine ⟨hfin, ?_⟩
    rw [exact_parts hfin, parts_negative, parts_mantissa, parts_exponent, hword, hbiased, hfraction,
      beq_false_of_ne hsign, if_neg (Nat.succ_ne_zero k), if_neg (Nat.succ_ne_zero k), Nat.zero_add,
      hscale]
    congr 1
    omega
  · obtain ⟨k, hk⟩ := Int.eq_ofNat_of_zero_le (show 0 ≤ e + 1074 by omega)
    have hnat : (e + 1074).toNat = k := by omega
    have hlt : 2 ^ k < 2 ^ 52 := Nat.pow_lt_pow_right (by norm_num) (by omega)
    rw [hnat, Nat.pow_eq]
    have hexp : 2 ^ k / 2 ^ 52 % 2 ^ 11 = 0 := by rw [Nat.div_eq_of_lt hlt, Nat.zero_mod]
    have hword := word_ofBits (n := 2 ^ k) (by omega) (by omega)
    have hfin := isFinite_of_word (x := Float.ofBits (.ofNat (2 ^ k))) (by rw [hword, hexp]; omega)
    have hsign : 2 ^ k / 2 ^ 63 ≠ 1 := by omega
    refine ⟨hfin, ?_⟩
    rw [exact_parts hfin, parts_negative, parts_mantissa, parts_exponent, hword, hexp,
      beq_false_of_ne hsign, if_pos rfl, if_pos rfl, Nat.mod_eq_of_lt hlt, hscale]
    congr 1
    omega

/-! ## Finite, infinite or not a number -/

theorem isNaN_of_isFinite (h : x.isFinite = true) : x.isNaN = false := by
  change x.toModel.unpack.isFinite = true at h
  show x.toModel.unpack.isNaN = false
  cases hu : x.toModel.unpack <;> rw [hu] at h <;> first | rfl | cases h

theorem isInf_of_isFinite (h : x.isFinite = true) : x.isInf = false := by
  change x.toModel.unpack.isFinite = true at h
  show x.toModel.unpack.isInf = false
  cases hu : x.toModel.unpack <;> rw [hu] at h <;> first | rfl | cases h

theorem isFinite_of_not (hnan : x.isNaN = false) (hinf : x.isInf = false) :
    x.isFinite = true := by
  change x.toModel.unpack.isNaN = false at hnan
  change x.toModel.unpack.isInf = false at hinf
  show x.toModel.unpack.isFinite = true
  cases hu : x.toModel.unpack <;> rw [hu] at hnan hinf <;>
    first | rfl | (cases hnan; done) | cases hinf

theorem zero_eq : (0 : Float) = 0.0 := by
  decide +kernel

theorem one_eq : (1 : Float) = 1.0 := by
  decide +kernel

/-! ## Remainders -/

/-- The mantissa of the remainder at the smaller exponent. -/
theorem remainder_mantissa_lt {m n : ℕ} {e f : ℤ} (hm : m < 2 ^ 53) (hn : n < 2 ^ 53) (hpos : 0 < n) :
    m * 2 ^ (e - min e f).toNat % (n * 2 ^ (f - min e f).toNat) < 2 ^ 53 := by
  rcases le_total e f with h | h
  · rw [min_eq_left h, sub_self, Int.toNat_zero, pow_zero, mul_one]
    exact lt_of_le_of_lt (Nat.mod_le _ _) hm
  · rw [min_eq_right h, sub_self, Int.toNat_zero, pow_zero, mul_one]
    exact lt_trans (Nat.mod_lt _ hpos) hn

theorem parts_mantissa_pos (hy : y.isFinite = true) (h : 0 < exact y) : 0 < (parts y).mantissa := by
  rw [exact_parts hy, signed_cast] at h
  by_contra hzero
  rw [Nat.eq_zero_of_not_pos hzero] at h
  simp at h

theorem parts_exponent_le (hx : x.isFinite = true) : (parts x).exponent ≤ 971 := by
  by_contra hlarge
  have hbits : (word x).toNat / 2 ^ 52 % 2 ^ 11 = 2047 := by
    rw [parts_exponent] at hlarge
    split_ifs at hlarge <;> omega
  change (UnpackedFloat.unpack Format.binary64 (word x)).isFinite = true at hx
  rw [unpack_eq, toNat_unpackExponent, if_pos hbits] at hx
  split_ifs at hx <;> cases hx

/-- The absolute value of a finite double, from its parts. -/
theorem abs_exact_eq (hx : x.isFinite = true) :
    |exact x| = (parts x).mantissa * 2 ^ (parts x).exponent := by
  rw [exact_parts hx, abs_mul, abs_of_pos (two_zpow_pos _), signed_cast]
  split_ifs
  · rw [abs_neg, Nat.abs_cast]
  · rw [Nat.abs_cast]

/-- A small multiple of a power of two, computed. -/
theorem scaled_isRounding {m : ℕ} {e : ℤ} (hm : m < 2 ^ 53) (hlow : -1074 ≤ e) (hhigh : e ≤ 1023) :
    IsRounding (ofNat m * powerOfTwo e) (m * 2 ^ e) := by
  obtain ⟨hfm, hm⟩ := ofNat_exact hm.le
  obtain ⟨hfe, he⟩ := powerOfTwo_exact hlow hhigh
  have h := mul_isRounding hfm hfe
  rwa [hm, he] at h

/-- The remainder of a nonnegative double lies between zero and the double. -/
theorem remainder_bounds (hx : x.isFinite = true) (hy : y.isFinite = true) (h0 : 0 ≤ exact x)
    (h1 : 0 < exact y) : (remainder x y).isFinite = true ∧ 0 ≤ exact (remainder x y) ∧
      exact (remainder x y) ≤ exact x := by
  have hzero : (y == 0) = false := by
    rw [zero_eq, ← Bool.not_eq_true, beq_iff_exact hy zero_exact.1, zero_exact.2]
    exact h1.ne'
  have hne : (x.isNaN || y.isNaN || x.isInf || y == 0) = false := by
    rw [isNaN_of_isFinite hx, isNaN_of_isFinite hy, isInf_of_isFinite hx, hzero]
    rfl
  unfold remainder
  rw [hne, isInf_of_isFinite hy]
  simp only [Bool.false_eq_true, if_false]
  have hxe := parts_exponent_ge x
  have hye := parts_exponent_ge y
  have hxe' := parts_exponent_le hx
  have hlow := min_le_left (parts x).exponent (parts y).exponent
  have hm := remainder_mantissa_lt (e := (parts x).exponent) (f := (parts y).exponent)
    (parts_mantissa_lt x) (parts_mantissa_lt y) (parts_mantissa_pos hy h1)
  have hle := Nat.mod_le
    ((parts x).mantissa * 2 ^ ((parts x).exponent - min (parts x).exponent (parts y).exponent).toNat)
    ((parts y).mantissa * 2 ^ ((parts y).exponent - min (parts x).exponent (parts y).exponent).toNat)
  generalize hlow' : min (parts x).exponent (parts y).exponent = low at *
  generalize (parts x).mantissa * 2 ^ ((parts x).exponent - low).toNat %
    ((parts y).mantissa * 2 ^ ((parts y).exponent - low).toNat) = m at *
  have hround := scaled_isRounding hm (e := low) (by omega) (by omega)
  have hsmall : (m : ℚ) * 2 ^ low ≤ exact x := by
    have hcast : (m : ℚ) ≤ (parts x).mantissa * 2 ^ ((parts x).exponent - low).toNat := by
      exact_mod_cast hle
    calc (m : ℚ) * 2 ^ low
        ≤ (parts x).mantissa * 2 ^ ((parts x).exponent - low).toNat * 2 ^ low :=
          mul_le_mul_of_nonneg_right hcast (two_zpow_pos low).le
      _ = (parts x).mantissa * 2 ^ (parts x).exponent := by
          rw [mul_assoc, ← zpow_natCast, ← zpow_add₀ (by norm_num)]
          congr 2
          omega
      _ = exact x := by rw [← abs_exact_eq hx, abs_of_nonneg h0]
  have hnonneg : 0 ≤ nearest ((m : ℚ) * 2 ^ low) :=
    nearest_nonneg (mul_nonneg (Nat.cast_nonneg m) (two_zpow_pos low).le)
  have hbound : nearest ((m : ℚ) * 2 ^ low) ≤ exact x := by
    rw [← nearest_exact x]
    exact nearest_mono hsmall
  have hfin := hround.finite_iff.mpr (by
    rw [InRange, abs_of_nonneg hnonneg]
    exact lt_of_le_of_lt (hbound.trans (le_abs_self _)) (inRange_exact x))
  have hval := hround.value hfin
  split_ifs with hneg
  · -- A nonnegative number with the sign bit is zero, and so is its remainder.
    have hx0 : exact x ≤ 0 := by
      rw [exact_parts hx, hneg, signed_cast, if_pos rfl, neg_mul]
      exact neg_nonpos.mpr (mul_nonneg (Nat.cast_nonneg _) (two_zpow_pos _).le)
    rw [neg_isFinite, exact_neg, hval, le_antisymm (hbound.trans hx0) hnonneg, neg_zero]
    exact ⟨hfin, le_rfl, h0⟩
  · rw [hval]
    exact ⟨hfin, hnonneg, hbound⟩

/-! ## Quotients -/

/-- A quotient rounded down, or a given zero when it is zero. -/
def roundDown (quotient zero : Float) : Float :=
  if quotient != 0 then
    let whole := floor quotient
    if quotient - whole > 0.5 then whole + 1 else whole
  else zero

/-- The quotient before it is rounded down. -/
def multipleQuotient (x y : Float) : Float :=
  let rest := remainder x y
  let quotient := (x - rest) / y
  if rest != 0 && decide (y < 0) != decide (rest < 0) then quotient - 1 else quotient

theorem floorQuotient_eq (x y : Float) :
    floorQuotient x y = roundDown (multipleQuotient x y) (zeroLike (x / y)) :=
  rfl

theorem truncate_zeroLike (x : Float) : truncate (zeroLike x) = 0 := by
  unfold zeroLike
  split_ifs
  · decide +kernel
  · decide +kernel

/-- What is rounded down to a finite double is zero or finite. -/
theorem isFinite_of_roundDown (h : (roundDown x z).isFinite = true) (hne : (x != 0) = true) :
    x.isFinite = true := by
  rw [roundDown, if_pos hne] at h
  by_contra hx
  have hfloor : floor x = x := if_neg hx
  simp only [hfloor] at h
  split_ifs at h
  · exact hx (isFinite_of_add h).1
  · exact hx h

/-- A double that is not negative is rounded down to its integer part. -/
theorem floor_of_nonneg (hx : x.isFinite = true) (h0 : 0 ≤ exact x) : floor x = ofInt (truncate x) := by
  obtain ⟨hfin, hval⟩ := ofInt_truncate hx
  have hnot : ¬x < ofInt (truncate x) := by
    rw [lt_iff_exact hx hfin, hval, towardZero, if_pos h0]
    exact not_lt.mpr (Int.floor_le _)
  rw [floor, if_pos hx]
  simp only [if_neg hnot]

/-- A nonnegative double is not rounded down below zero. -/
theorem truncate_roundDown (hx : x.isFinite = true) (h0 : 0 ≤ exact x) (hz : truncate z = 0)
    (h : (roundDown x z).isFinite = true) : 0 ≤ truncate (roundDown x z) := by
  have hpart : 0 ≤ towardZero (exact x) := by
    rw [towardZero, if_pos h0]
    exact Int.floor_nonneg.mpr h0
  obtain ⟨hfin, hval⟩ := ofInt_truncate hx
  have hnonneg : ∀ w : Float, w.isFinite = true → 0 ≤ exact w → 0 ≤ truncate w := by
    intro w hw hw0
    rw [truncate_eq hw, towardZero, if_pos hw0]
    exact Int.floor_nonneg.mpr hw0
  unfold roundDown at h ⊢
  split_ifs at h ⊢ with hne
  · simp only [floor_of_nonneg hx h0] at h ⊢
    split_ifs at h ⊢
    · refine hnonneg _ h ?_
      rw [one_eq] at h ⊢
      have hround := add_isRounding hfin one_exact.1
      rw [hround.value h, hval, one_exact.2]
      exact nearest_nonneg (by positivity)
    · exact hnonneg _ h (by rw [hval]; exact_mod_cast hpart)
  · exact hz.ge

theorem le_of_lt (h : x < y) : x ≤ y := by
  change decide (UnpackedFloat.lt x.toModel.unpack y.toModel.unpack = true) = true at h
  show decide (UnpackedFloat.le x.toModel.unpack y.toModel.unpack = true) = true
  rw [decide_eq_true_iff, UnpackedFloat.lt, beq_iff_eq] at h
  rw [decide_eq_true_iff, UnpackedFloat.le, h]
  rfl

theorem le_of_beq (h : (x == y) = true) : x ≤ y := by
  change UnpackedFloat.beq x.toModel.unpack y.toModel.unpack = true at h
  show decide (UnpackedFloat.le x.toModel.unpack y.toModel.unpack = true) = true
  rw [UnpackedFloat.beq, beq_iff_eq] at h
  rw [decide_eq_true_iff, UnpackedFloat.le, h]
  rfl

/-- Zero stays zero when it is divided. -/
theorem exact_zero_div (hx : x.isFinite = true) (h : exact x = 0) : exact (x / y) = 0 := by
  obtain ⟨s, hs⟩ := unpack_of_exact_zero hx h
  show magnitude (UnpackedFloat.unpack Format.binary64 (UnpackedFloat.pack Format.binary64
    (UnpackedFloat.div Format.binary64 x.toModel.unpack y.toModel.unpack))) = 0
  rw [hs]
  cases y.toModel.unpack with
  | notANumber => exact congrArg magnitude (unpack_pack (u := .notANumber) trivial trivial)
  | infinity t => exact congrArg magnitude (unpack_pack (u := .zero (s / t)) trivial trivial)
  | zero t => exact congrArg magnitude (unpack_pack (u := .notANumber) trivial trivial)
  | finite t m e hm => exact congrArg magnitude (unpack_pack (u := .zero (s / t)) trivial trivial)

/-- Nothing is left of a number once it is taken away from itself. -/
theorem sub_self_exact (hx : x.isFinite = true) :
    (x - x).isFinite = true ∧ exact (x - x) = 0 := by
  have h := sub_isRounding hx hx
  rw [sub_self] at h
  exact h.of_grid nearest_zero (by norm_num [InRange])

/-- The quotient of a nonnegative double by a positive one is not negative. -/
theorem multipleQuotient_nonneg (hx : 0.0 ≤ x) (hy : ¬y ≤ 0.0)
    (h : (multipleQuotient x y).isFinite = true) : 0 ≤ exact (multipleQuotient x y) := by
  have hylt : ¬y < 0 := fun hlt => hy (zero_eq ▸ le_of_lt hlt)
  have hquot : ((x - remainder x y) / y).isFinite = true := by
    unfold multipleQuotient at h
    dsimp only at h
    split_ifs at h
    · exact (isFinite_of_sub h).1
    · exact h
  obtain ⟨hdiff, hynan⟩ := isFinite_of_div hquot
  obtain ⟨hxfin, hrest⟩ := isFinite_of_sub hdiff
  have hx0 : 0 ≤ exact x := by
    rwa [le_iff_exact zero_exact.1 hxfin, zero_exact.2] at hx
  have hsame : ¬remainder x y < 0 → multipleQuotient x y = (x - remainder x y) / y := by
    intro hrest
    unfold multipleQuotient
    simp [hylt, hrest]
  by_cases hyfin : y.isFinite = true
  · have hy0 : 0 < exact y := by
      rw [le_iff_exact hyfin zero_exact.1, zero_exact.2] at hy
      exact not_le.mp hy
    obtain ⟨-, hlow, hhigh⟩ := remainder_bounds hxfin hyfin hx0 hy0
    have hnot : ¬remainder x y < 0 := by
      rw [zero_eq, lt_iff_exact hrest zero_exact.1, zero_exact.2]
      exact not_lt.mpr hlow
    have hdiff0 : 0 ≤ exact (x - remainder x y) := by
      rw [(sub_isRounding hxfin hrest).value hdiff]
      exact nearest_nonneg (sub_nonneg.mpr hhigh)
    rw [hsame hnot, (div_isRounding hdiff hyfin hy0.ne').value hquot]
    exact nearest_nonneg (div_nonneg hdiff0 hy0.le)
  · have hinf : y.isInf = true := by
      by_contra hinf
      exact hyfin (isFinite_of_not hynan (Bool.not_eq_true _ ▸ hinf))
    have hzero : (y == 0) = false := by
      rw [← Bool.not_eq_true]
      exact fun hbeq => hy (zero_eq ▸ le_of_beq hbeq)
    have hrem : remainder x y = x := by
      unfold remainder
      rw [isNaN_of_isFinite hxfin, hynan, isInf_of_isFinite hxfin, hzero, hinf]
      rfl
    have hnot : ¬remainder x y < 0 := by
      rw [hrem, zero_eq, lt_iff_exact hxfin zero_exact.1, zero_exact.2]
      exact not_lt.mpr hx0
    obtain ⟨hself, hself0⟩ := sub_self_exact hxfin
    rw [hsame hnot, hrem, exact_zero_div hself hself0]

/-- The quotient of a nonnegative double by a positive one, rounded down, is not negative. -/
theorem floorQuotient_nonneg (hx : 0.0 ≤ x) (hy : ¬y ≤ 0.0)
    (h : (floorQuotient x y).isFinite = true) : 0 ≤ truncate (floorQuotient x y) := by
  rw [floorQuotient_eq] at h ⊢
  by_cases hne : (multipleQuotient x y != 0) = true
  · have hfin := isFinite_of_roundDown h hne
    exact truncate_roundDown hfin (multipleQuotient_nonneg hx hy hfin) (truncate_zeroLike _) h
  · rw [roundDown, if_neg hne, truncate_zeroLike]

end Double

end TradeRules
