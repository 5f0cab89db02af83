import TradeRules.Number.Reading
import TradeRules.Proofs.Number.Shortest

/-!
# Decimals read as doubles

`Decimal.toDouble` gives the double that a decimal rounds to (`toDouble_of_nearest`), also where it
answers from the power of ten of the first digit alone.  A double is then found again from the decimal
that is written for its magnitude, and its sign (`signed_toDouble`).
-/

namespace TradeRules

namespace Decimal

open Double

variable {d : Decimal} {x : Float}

/-! ## The power of ten of the first digit -/

theorem length_digitChars_pos (n : ℕ) : 0 < (digitChars n).length :=
  Nat.length_toDigits_pos

theorem lt_ten_pow_length (n : ℕ) : n < 10 ^ (digitChars n).length :=
  (Nat.length_toDigits_le_iff (by norm_num) (length_digitChars_pos n)).mp le_rfl

theorem ten_pow_length_le {n : ℕ} (hn : n ≠ 0) : 10 ^ ((digitChars n).length - 1) ≤ n := by
  rcases Nat.eq_zero_or_pos ((digitChars n).length - 1) with hlen | hlen
  · rw [hlen, pow_zero]
    exact Nat.pos_of_ne_zero hn
  · by_contra hlt
    have := (Nat.length_toDigits_le_iff (by norm_num) hlen).mpr (not_le.mp hlt)
    have hpos := length_digitChars_pos n
    unfold digitChars at *
    omega

theorem leading_bounds (h : d.digits ≠ 0) :
    (10 : ℚ) ^ d.leading ≤ d.exact ∧ d.exact < 10 ^ (d.leading + 1) := by
  have hlow : (10 : ℚ) ^ ((digitChars d.digits).length - 1) ≤ d.digits := by
    exact_mod_cast ten_pow_length_le h
  have hhigh : (d.digits : ℚ) < 10 ^ (digitChars d.digits).length := by
    exact_mod_cast lt_ten_pow_length d.digits
  have hlen := length_digitChars_pos d.digits
  have hsucc : d.leading + 1 = d.exponent + ((digitChars d.digits).length : ℕ) := by
    unfold leading
    omega
  rw [hsucc]
  unfold leading exact
  rw [zpow_add₀ (by norm_num), zpow_add₀ (by norm_num), zpow_natCast, zpow_natCast,
    mul_comm (10 ^ d.exponent), mul_comm (10 ^ d.exponent)]
  exact ⟨mul_le_mul_of_nonneg_right hlow (ten_zpow_pos _).le,
    mul_lt_mul_of_pos_right hhigh (ten_zpow_pos _)⟩

/-! ## The double of a decimal -/

theorem scientific_eq (d : Decimal) :
    scientific d.digits (d.exponent < 0) d.exponent.natAbs = d.exact := by
  unfold scientific exact
  rcases lt_or_ge d.exponent 0 with h | h
  · obtain ⟨n, hn⟩ := Int.eq_ofNat_of_zero_le (show 0 ≤ -d.exponent by omega)
    rw [if_pos (decide_eq_true h), show d.exponent.natAbs = n by omega,
      show d.exponent = -(n : ℤ) by omega, zpow_neg, zpow_natCast, div_eq_mul_inv]
  · obtain ⟨n, hn⟩ := Int.eq_ofNat_of_zero_le h
    rw [if_neg (by simpa using h), show d.exponent.natAbs = n by omega, hn, zpow_natCast]

/-- A decimal that rounds to the magnitude of a double is read as that magnitude. -/
theorem toDouble_of_nearest (h : nearest d.exact = |Double.exact x|) :
    d.toDouble.isFinite = true ∧ Double.exact d.toDouble = |Double.exact x| := by
  have hrange : InRange (nearest d.exact) := by
    rw [h, InRange, abs_abs]
    exact inRange_exact x
  have hzero : nearest d.exact = 0 →
      (0.0 : Float).isFinite = true ∧ Double.exact 0.0 = |Double.exact x| := fun h0 =>
    ⟨zero_exact.1, by rw [zero_exact.2, ← h, h0]⟩
  unfold toDouble
  split_ifs with hdigits hlarge hsmall
  · refine hzero ?_
    rw [exact, hdigits, Nat.cast_zero, zero_mul, nearest_zero]
  · refine absurd hrange (not_inRange_of_le ?_)
    calc (2 : ℚ) ^ 1024 ≤ 10 ^ (400 : ℤ) := by
          rw [show (400 : ℤ) = (400 : ℕ) from rfl, zpow_natCast]
          exact_mod_cast (by decide +kernel : 2 ^ 1024 ≤ 10 ^ 400)
      _ ≤ 10 ^ d.leading := zpow_le_zpow_right₀ (by norm_num) hlarge.le
      _ ≤ d.exact := (leading_bounds hdigits).1
  · refine hzero (nearest_tiny (mul_nonneg (Nat.cast_nonneg _) (ten_zpow_pos _).le) ?_)
    calc d.exact ≤ 10 ^ (d.leading + 1) := (leading_bounds hdigits).2.le
      _ ≤ 10 ^ (-400 : ℤ) := zpow_le_zpow_right₀ (by norm_num) (by omega)
      _ ≤ 2 ^ (-1076 : ℤ) := by
          rw [show (-400 : ℤ) = -(400 : ℕ) from rfl, show (-1076 : ℤ) = -(1076 : ℕ) from rfl,
            zpow_neg, zpow_neg, zpow_natCast, zpow_natCast,
            inv_le_inv₀ (by positivity) (by positivity)]
          exact_mod_cast (by decide +kernel : 2 ^ 1076 ≤ 10 ^ 400)
  · have hround := ofScientific_isRounding d.digits (d.exponent < 0) d.exponent.natAbs
    rw [scientific_eq] at hround
    have hfin := hround.finite_iff.mpr hrange
    exact ⟨hfin, by rw [hround.value hfin, h]⟩

/-! ## Signs -/

theorem mantissa_eq_zero_iff (hx : x.isFinite = true) :
    (parts x).mantissa = 0 ↔ Double.exact x = 0 := by
  rw [← abs_eq_zero, abs_exact_eq hx, mul_eq_zero, Nat.cast_eq_zero,
    or_iff_left (two_zpow_pos _).ne']

/-- The sign of a nonzero finite double is the sign of its exact number. -/
theorem exact_eq_signed_abs (hx : x.isFinite = true) :
    Double.exact x = if (parts x).negative then -|Double.exact x| else |Double.exact x| := by
  rw [abs_exact_eq hx, exact_parts hx, signed_cast]
  split_ifs
  · exact neg_mul _ _
  · rfl

theorem unpack_of_zero (hx : x.isFinite = true) (h : Double.exact x = 0) :
    x.toModel.unpack = .zero (signBit (parts x).negative) := by
  rcases unpack_parts hx with ⟨-, hu⟩ | ⟨hpos, -⟩
  · exact hu
  · exact absurd ((mantissa_eq_zero_iff hx).mpr h) hpos.ne'

theorem exact_eq_zero_iff (d : Decimal) : d.exact = 0 ↔ d.digits = 0 := by
  rw [exact, mul_eq_zero, Nat.cast_eq_zero, or_iff_left (ten_zpow_pos _).ne']

/-- A finite double is read from a decimal that rounds to its magnitude, the two zeros included. -/
theorem signed_toDouble (hx : x.isFinite = true) (h : nearest d.exact = |Double.exact x|)
    (hzero : Double.exact x = 0 → d.exact = 0) :
    (if (parts x).negative then -d.toDouble else d.toDouble) = x := by
  obtain ⟨hfin, hval⟩ := toDouble_of_nearest h
  by_cases hx0 : Double.exact x = 0
  · -- Both zeros have the same exact number, so their words are compared.
    have hd : d.toDouble = 0.0 := if_pos ((exact_eq_zero_iff d).mp (hzero hx0))
    have hplus : (0.0 : Float).toModel.unpack = .zero .positive := by
      rw [unpack_of_zero zero_exact.1 zero_exact.2,
        show (parts 0.0).negative = false by decide +kernel]
      rfl
    refine eq_of_unpack_eq ?_
    rw [hd, unpack_of_zero hx hx0]
    cases (parts x).negative with
    | false => exact hplus
    | true =>
      rw [if_pos rfl, unpack_neg, hplus]
      rfl
  · refine (eq_of_exact_eq ?_ hx0).symm
    rw [exact_eq_signed_abs hx, ← hval]
    split_ifs
    · exact (exact_neg _).symm
    · rfl

/-- The decimal written for a zero is zero. -/
theorem literal_exact_of_zero (hx : x.isFinite = true) (h : Double.exact x = 0) :
    (NumberForm.literal.decimal x).exact = 0 := by
  have hform : NumberForm.literal.decimal x = stripZeros 400 (shortest x) := rfl
  rw [hform, stripZeros_exact, shortest, if_pos ((mantissa_eq_zero_iff hx).mpr h)]
  exact (exact_eq_zero_iff _).mpr rfl

end Decimal

end TradeRules
