import TradeRules.Proofs.Double.Rounding

/-!
# The bits of doubles

The kernel's model of a double is a word of 64 bits.  Arithmetic unpacks two words, works on sign,
mantissa and exponent, and packs the result.  This module says what unpacking yields (`unpack_eq`)
and that it undoes packing for those numbers that a word can hold (`unpack_pack`).  That packing undoes
unpacking is `Float.Model.UnpackedFloat.pack_unpack_of_valid`.

An unpacked number is `Canonical` when its mantissa has fifty-three digits, or fewer at the least
exponent.  It is `Bounded` when its exponent is not too large for a word.  `magnitude` is the exact
number it stands for.
-/

namespace TradeRules

namespace Double

open Float.Model Float.Model.UnpackedFloat

/-! ## The parts of a word -/

theorem toNat_unpackMantissa (b : BitVec Format.binary64.numBits) :
    (unpackMantissa b).toNat = b.toNat % 2 ^ 52 := by
  simp [unpackMantissa, Nat.shiftRight_eq_div_pow]

theorem toNat_unpackExponent (b : BitVec Format.binary64.numBits) :
    (unpackExponent b).toNat = b.toNat / 2 ^ 52 % 2 ^ 11 := by
  simp [unpackExponent, Nat.shiftRight_eq_div_pow]

theorem toNat_unpackSign (b : BitVec Format.binary64.numBits) :
    (unpackSign b).toNat = b.toNat / 2 ^ 63 % 2 := by
  simp [unpackSign, Nat.shiftRight_eq_div_pow]

theorem toNat_append_one (m : BitVec 52) : (1#1 ++ m).toNat = 2 ^ 52 + m.toNat := by
  rw [BitVec.toNat_append, ← Nat.shiftLeft_add_eq_or_of_lt m.isLt]
  simp [Nat.shiftLeft_eq]

/-! ## Unpacking and packing -/

/-- What a word unpacks to: the exponent 2047 is that of infinities and NaN, and the exponent 0
that of the numbers without a leading digit. -/
theorem unpack_eq (b : BitVec Format.binary64.numBits) :
    UnpackedFloat.unpack Format.binary64 b =
      if (unpackExponent b).toNat = 2047 then
        if (unpackMantissa b).toNat = 0 then .infinity (Sign.ofBitVec (unpackSign b))
        else .notANumber
      else if (unpackExponent b).toNat = 0 then
        if h : (unpackMantissa b).toNat = 0 then .zero (Sign.ofBitVec (unpackSign b))
        else .finite (Sign.ofBitVec (unpackSign b)) (unpackMantissa b).toNat (-1074)
          (Nat.pos_of_ne_zero h)
      else .finite (Sign.ofBitVec (unpackSign b)) (2 ^ 52 + (unpackMantissa b).toNat)
        ((unpackExponent b).toNat - 1075) (by omega) := by
  have hinf : unpackExponent b = -1#11 ↔ (unpackExponent b).toNat = 2047 :=
    ⟨fun h => by rw [h]; rfl, fun h => BitVec.eq_of_toNat_eq (by rw [h]; rfl)⟩
  have hsub : unpackExponent b = 0#11 ↔ (unpackExponent b).toNat = 0 :=
    ⟨fun h => by rw [h]; rfl, fun h => BitVec.eq_of_toNat_eq (by rw [h]; rfl)⟩
  have hzero : unpackMantissa b = 0#52 ↔ (unpackMantissa b).toNat = 0 :=
    ⟨fun h => by rw [h]; rfl, fun h => BitVec.eq_of_toNat_eq (by rw [h]; rfl)⟩
  unfold UnpackedFloat.unpack
  simp only [hinf, hsub, hzero, toNat_append_one]
  split_ifs with h1 h2 h3 h4
  · rfl
  · rfl
  · rfl
  · simp [h3, Format.exponentBias]
  · simp [Format.exponentBias]

/-- What a finite number packs to: an infinity when the exponent is too large, and no leading digit
is stored. -/
theorem pack_finite (s : Sign) (m : Nat) (e : Int) (h : 0 < m) :
    UnpackedFloat.pack Format.binary64 (.finite s m e h) =
      if 2048 ≤ (e + 1075).toNat + 1 then packedInfinity Format.binary64 s
      else if m.log2 + 1 = 53 then
        packComponents Format.binary64 s (BitVec.ofNat 11 (e + 1075).toNat) (BitVec.ofNat 52 m)
      else packComponents Format.binary64 s 0#11 (BitVec.ofNat 52 m) := by
  have hbias : e + (Format.binary64.exponentBias : Int)
      + (Format.binary64.mantissaBitsWithoutImplicit : Int) = e + 1075 := by
    simp only [Format.exponentBias]
    omega
  unfold UnpackedFloat.pack
  simp only [hbias]
  rfl

/-! ## Numbers that a word can hold -/

/-- Whether the mantissa has fifty-three digits, or fewer at the least exponent. -/
def Canonical : UnpackedFloat → Prop
  | .finite _ m e _ => m < 2 ^ 53 ∧ -1074 ≤ e ∧ (2 ^ 52 ≤ m ∨ e = -1074)
  | _ => True

/-- Whether the exponent is not too large for a word. -/
def Bounded : UnpackedFloat → Prop
  | .finite _ _ e _ => e ≤ 971
  | _ => True

theorem canonical_unpack (b : BitVec Format.binary64.numBits) :
    Canonical (UnpackedFloat.unpack Format.binary64 b) := by
  have hm := toNat_unpackMantissa b
  rw [unpack_eq]
  split_ifs <;> simp only [Canonical]
  · exact ⟨by omega, le_refl _, .inr trivial⟩
  · omega

theorem bounded_unpack (b : BitVec Format.binary64.numBits) :
    Bounded (UnpackedFloat.unpack Format.binary64 b) := by
  have he := toNat_unpackExponent b
  rw [unpack_eq]
  split_ifs <;> simp only [Bounded]
  · omega
  · omega

theorem log2_add_one_eq {m : Nat} (hm : 0 < m) (h : m < 2 ^ 53) :
    m.log2 + 1 = 53 ↔ 2 ^ 52 ≤ m := by
  rw [← Nat.le_log2 hm.ne']
  have := (Nat.log2_lt hm.ne').mpr h
  omega

/-- Packing loses nothing of a number that a word can hold. -/
theorem unpack_pack {u : UnpackedFloat} (hc : Canonical u) (hb : Bounded u) :
    UnpackedFloat.unpack Format.binary64 (UnpackedFloat.pack Format.binary64 u) = u := by
  cases u with
  | notANumber => rfl
  | infinity s => cases s <;> rfl
  | zero s => cases s <;> rfl
  | finite s m e hm =>
    obtain ⟨hlt, hlow, hlead⟩ := hc
    have hexp : e ≤ 971 := hb
    rw [pack_finite, if_neg (by omega)]
    by_cases hn : 2 ^ 52 ≤ m
    · rw [if_pos ((log2_add_one_eq hm hlt).mpr hn), unpack_eq]
      simp only [unpackExponent_packComponents, unpackMantissa_packComponents,
        unpackSign_packComponents, Sign.ofBitVec_toBitVec, BitVec.toNat_ofNat]
      rw [if_neg (by omega), if_neg (by omega)]
      congr 1 <;> omega
    · rw [if_neg (fun h => hn ((log2_add_one_eq hm hlt).mp h)), unpack_eq]
      simp only [unpackExponent_packComponents, unpackMantissa_packComponents,
        unpackSign_packComponents, Sign.ofBitVec_toBitVec, BitVec.toNat_ofNat]
      rw [if_neg (by decide), if_pos (by decide), dif_neg (by omega)]
      congr 1 <;> omega

/-- A number with a larger exponent is packed as an infinity. -/
theorem unpack_pack_overflow {s : Sign} {m : Nat} {e : Int} (hm : 0 < m) (he : 971 < e) :
    UnpackedFloat.unpack Format.binary64 (UnpackedFloat.pack Format.binary64 (.finite s m e hm)) =
      .infinity s := by
  rw [pack_finite, if_pos (by omega)]
  cases s <;> rfl

/-! ## The exact number -/

/-- The number that an unpacked double stands for, zero for infinities and NaN. -/
def magnitude : UnpackedFloat → ℚ
  | .finite s m e _ => (s.apply m : ℤ) * 2 ^ e
  | _ => 0

/-- Whether an unpacked double is packed as a finite one. -/
theorem isFinite_unpack_pack {u : UnpackedFloat} (hc : Canonical u) (hf : u.isFinite = true) :
    (UnpackedFloat.unpack Format.binary64 (UnpackedFloat.pack Format.binary64 u)).isFinite = true
      ↔ InRange (magnitude u) := by
  cases u with
  | notANumber => cases hf
  | infinity s => cases hf
  | zero s => cases s <;> simp [magnitude, InRange] <;> rfl
  | finite s m e hm =>
    have habs : |magnitude (.finite s m e hm)| = m * 2 ^ e := by
      have hpow := two_zpow_pos e
      cases s <;> simp [magnitude, Sign.apply, abs_mul, abs_of_pos hpow]
    obtain ⟨hlt, hlow, hlead⟩ := id hc
    rw [InRange, habs]
    rcases le_or_gt e 971 with he | he
    · rw [unpack_pack hc he]
      refine iff_of_true rfl ?_
      calc (m : ℚ) * 2 ^ e < 2 ^ 53 * 2 ^ e := by
            exact mul_lt_mul_of_pos_right (by exact_mod_cast hlt) (two_zpow_pos e)
        _ = 2 ^ (53 + e) := by rw [zpow_add₀ (by norm_num)]; norm_num
        _ ≤ 2 ^ (1024 : ℤ) := zpow_le_zpow_right₀ (by norm_num) (by omega)
        _ = 2 ^ 1024 := by norm_num
    · rw [unpack_pack_overflow hm he]
      refine iff_of_false (by simp [UnpackedFloat.isFinite]) (not_lt.mpr ?_)
      have hbig : (2 : ℚ) ^ 52 ≤ m := by
        have : 2 ^ 52 ≤ m := by omega
        exact_mod_cast this
      calc (2 : ℚ) ^ 1024 = 2 ^ (1024 : ℤ) := by norm_num
        _ ≤ 2 ^ (52 + e) := zpow_le_zpow_right₀ (by norm_num) (by omega)
        _ = 2 ^ 52 * 2 ^ e := by rw [zpow_add₀ (by norm_num)]; norm_num
        _ ≤ m * 2 ^ e := mul_le_mul_of_nonneg_right hbig (two_zpow_pos e).le

end Double

end TradeRules
