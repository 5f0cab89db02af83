import TradeRules.Proofs.Double.Exact
import TradeRules.Rule.Operation

/-!
# Integer parts of doubles

`Double.parts` reads the bits of a double, and the exact number is the signed mantissa scaled by the
power of two (`exact_parts`).  So `Double.truncate` is the exact number rounded toward zero
(`truncate_eq`), the integer part of a double is itself a double (`ofInt_truncate`), and a result
settled to a kind is the exact number, or its integer part for whole numbers (`settle_exact`).
-/

namespace TradeRules

namespace Double

open Float.Model Float.Model.UnpackedFloat

variable {x y : Float}

/-! ## The parts of a double -/

theorem signed_cast (negative : Bool) (n : ℕ) :
    ((signed negative n : ℤ) : ℚ) = if negative then -(n : ℚ) else n := by
  unfold signed
  split_ifs <;> simp

/-- The word of a double. -/
def word (x : Float) : BitVec Format.binary64.numBits :=
  x.toModel.toBits.toBitVec

theorem parts_negative (x : Float) : (parts x).negative = ((word x).toNat / 2 ^ 63 == 1) :=
  rfl

theorem parts_mantissa (x : Float) : (parts x).mantissa =
    if (word x).toNat / 2 ^ 52 % 2 ^ 11 = 0 then (word x).toNat % 2 ^ 52
    else (word x).toNat % 2 ^ 52 + 2 ^ 52 :=
  rfl

theorem parts_exponent (x : Float) : (parts x).exponent =
    (if (word x).toNat / 2 ^ 52 % 2 ^ 11 = 0 then 1
      else (((word x).toNat / 2 ^ 52 % 2 ^ 11 : ℕ) : ℤ)) - 1075 :=
  rfl

theorem parts_mantissa_lt (x : Float) : (parts x).mantissa < 2 ^ 53 := by
  rw [parts_mantissa]
  split_ifs <;> omega

theorem parts_exponent_ge (x : Float) : -1074 ≤ (parts x).exponent := by
  rw [parts_exponent]
  split_ifs <;> omega

/-- The sign bit as a sign. -/
def signBit (negative : Bool) : Sign :=
  if negative then .negative else .positive

theorem ofBitVec_unpackSign (b : BitVec Format.binary64.numBits) :
    Sign.ofBitVec (unpackSign b) = signBit (b.toNat / 2 ^ 63 == 1) := by
  have hs := toNat_unpackSign b
  have hlt : b.toNat < 2 ^ 64 := b.isLt
  have hbit : unpackSign b = 0#1 ↔ (unpackSign b).toNat = 0 :=
    ⟨fun h => by rw [h]; rfl, fun h => BitVec.eq_of_toNat_eq (by rw [h]; rfl)⟩
  unfold Sign.ofBitVec signBit
  simp only [hbit, hs, beq_iff_eq]
  split_ifs <;> first | rfl | omega

/-- The parts of a finite double are what it unpacks to. -/
theorem unpack_parts (hx : x.isFinite = true) :
    (parts x).mantissa = 0 ∧ x.toModel.unpack = .zero (signBit (parts x).negative) ∨
      ∃ h : 0 < (parts x).mantissa, x.toModel.unpack =
        .finite (signBit (parts x).negative) (parts x).mantissa (parts x).exponent h := by
  have hm := toNat_unpackMantissa (word x)
  have he := toNat_unpackExponent (word x)
  have hunpack : x.toModel.unpack = UnpackedFloat.unpack Format.binary64 (word x) := rfl
  have hfin := unpack_finite hx
  rw [hunpack, unpack_eq] at hfin
  rw [hunpack, unpack_eq, parts_negative, ← ofBitVec_unpackSign]
  simp only [parts_mantissa, parts_exponent]
  split_ifs at hfin with h1 h2 h3 h4
  · cases hfin
  · cases hfin
  · left
    rw [if_neg h1, if_pos h3, dif_pos h4, if_pos (by omega)]
    exact ⟨by omega, rfl⟩
  · right
    have hzero : (word x).toNat / 2 ^ 52 % 2 ^ 11 = 0 := by omega
    rw [if_neg h1, if_pos h3, dif_neg h4]
    simp only [hzero, if_true]
    refine ⟨by omega, ?_⟩
    congr 1
  · right
    have hpos : (word x).toNat / 2 ^ 52 % 2 ^ 11 ≠ 0 := by omega
    rw [if_neg h1, if_neg h3]
    simp only [hpos, if_false]
    refine ⟨by omega, ?_⟩
    congr 1 <;> omega

/-- The exact number of a finite double is the signed mantissa, scaled. -/
theorem exact_parts (hx : x.isFinite = true) :
    exact x = (signed (parts x).negative (parts x).mantissa : ℤ) * 2 ^ (parts x).exponent := by
  unfold exact
  rcases unpack_parts hx with ⟨hz, hu⟩ | ⟨hpos, hu⟩
  · rw [hu, hz]
    simp [magnitude_of_zero, signed]
  · rw [hu, magnitude_of_finite]
    cases (parts x).negative <;> rfl

/-! ## Integer parts -/

/-- A rational number rounded toward zero. -/
def towardZero (q : ℚ) : ℤ :=
  if 0 ≤ q then ⌊q⌋ else -⌊-q⌋

@[simp] theorem towardZero_intCast (n : ℤ) : towardZero n = n := by
  unfold towardZero
  split_ifs
  · exact Int.floor_intCast n
  · rw [← Int.cast_neg, Int.floor_intCast, neg_neg]

@[simp] theorem towardZero_neg (q : ℚ) : towardZero (-q) = -towardZero q := by
  unfold towardZero
  rcases lt_trichotomy q 0 with h | rfl | h
  · rw [if_pos (by linarith), if_neg (by linarith), neg_neg]
  · simp
  · rw [if_neg (by linarith), if_pos h.le, neg_neg]

/-- A mantissa scaled by a power of two, without its fraction. -/
def wholePart (m : ℕ) (e : ℤ) : ℕ :=
  if 0 ≤ e then m * 2 ^ e.toNat else m / 2 ^ (-e).toNat

theorem truncate_signed (x : Float) :
    truncate x = signed (parts x).negative (wholePart (parts x).mantissa (parts x).exponent) :=
  rfl

theorem floor_scaled (m : ℕ) (e : ℤ) : ⌊(m : ℚ) * 2 ^ e⌋ = wholePart m e := by
  unfold wholePart
  split_ifs with he
  · obtain ⟨k, rfl⟩ := Int.eq_ofNat_of_zero_le he
    rw [zpow_natCast, Int.toNat_natCast]
    exact_mod_cast Int.floor_natCast (m * 2 ^ k)
  · obtain ⟨k, hk⟩ := Int.eq_ofNat_of_zero_le (show 0 ≤ -e by omega)
    have hek : e = -(k : ℤ) := by omega
    rw [hek, neg_neg, Int.toNat_natCast, zpow_neg, zpow_natCast, ← div_eq_mul_inv]
    have h := Rat.floor_intCast_div_natCast m (2 ^ k)
    push_cast at h ⊢
    exact h

/-- The integer part of a finite double is the exact number rounded toward zero. -/
theorem truncate_eq (hx : x.isFinite = true) : truncate x = towardZero (exact x) := by
  have hnonneg : (0 : ℚ) ≤ (parts x).mantissa * 2 ^ (parts x).exponent :=
    mul_nonneg (Nat.cast_nonneg _) (two_zpow_pos _).le
  have hpart : towardZero ((parts x).mantissa * 2 ^ (parts x).exponent) =
      wholePart (parts x).mantissa (parts x).exponent := by
    rw [towardZero, if_pos hnonneg, floor_scaled]
  rw [exact_parts hx, signed_cast, truncate_signed]
  cases (parts x).negative with
  | false => exact hpart.symm
  | true =>
    rw [if_pos rfl, neg_mul, towardZero_neg, hpart]
    rfl

theorem abs_towardZero_le (q : ℚ) : |(towardZero q : ℚ)| ≤ |q| := by
  unfold towardZero
  split_ifs with h
  · rw [abs_of_nonneg h, abs_of_nonneg (by exact_mod_cast Int.floor_nonneg.mpr h)]
    exact Int.floor_le q
  · have hneg : 0 ≤ -q := by linarith
    push_cast
    rw [abs_neg, ← abs_neg q, abs_of_nonneg hneg,
      abs_of_nonneg (by exact_mod_cast Int.floor_nonneg.mpr hneg)]
    exact Int.floor_le (-q)

theorem nearest_wholePart {m : ℕ} (hm : m ≤ 2 ^ 53) (e : ℤ) :
    nearest (wholePart m e : ℚ) = wholePart m e := by
  unfold wholePart
  split_ifs with he
  · obtain ⟨k, rfl⟩ := Int.eq_ofNat_of_zero_le he
    have h := nearest_of_grid (n := m) (e := k) (by rw [Nat.abs_cast]; exact_mod_cast hm) (by omega)
    rw [zpow_natCast] at h
    rw [Int.toNat_natCast]
    exact_mod_cast h
  · have hle : m / 2 ^ (-e).toNat ≤ 2 ^ 53 := (Nat.div_le_self _ _).trans hm
    have h := nearest_of_grid (n := ((m / 2 ^ (-e).toNat : ℕ) : ℤ)) (e := 0)
      (by rw [Nat.abs_cast]; exact_mod_cast hle) (by norm_num)
    rwa [zpow_zero, mul_one, Int.cast_natCast] at h

/-- The integer part of a double is on the grid. -/
theorem nearest_truncate (x : Float) : nearest (truncate x) = truncate x := by
  have h := nearest_wholePart (parts_mantissa_lt x).le (parts x).exponent
  rw [truncate_signed, signed_cast]
  split_ifs
  · rw [nearest_neg, h]
  · exact h

/-- The integer part of a finite double, as a double again. -/
theorem ofInt_truncate (hx : x.isFinite = true) :
    (ofInt (truncate x)).isFinite = true ∧
      exact (ofInt (truncate x)) = towardZero (exact x) := by
  rw [← truncate_eq hx]
  refine (ofInt_isRounding _).of_grid (nearest_truncate x) ?_
  rw [truncate_eq hx]
  exact lt_of_le_of_lt (abs_towardZero_le _) (inRange_exact x)

/-! ## Whole numbers -/

/-- Whether a double is finite and equal to its integer part. -/
def IsWhole (x : Float) : Prop :=
  x.isFinite = true ∧ (ofInt (truncate x) == x) = true

theorem isWhole_iff (hx : x.isFinite = true) : IsWhole x ↔ exact x = towardZero (exact x) := by
  have h := ofInt_truncate hx
  unfold IsWhole
  rw [beq_iff_exact h.1 hx, h.2]
  exact ⟨fun h => h.2.symm, fun h => ⟨hx, h.symm⟩⟩

/-- A finite double that stands for an integer is whole. -/
theorem isWhole_of_exact (hx : x.isFinite = true) {n : ℤ} (h : exact x = n) : IsWhole x := by
  rw [isWhole_iff hx, h, towardZero_intCast]

theorem isWhole_ofInt_truncate (hx : x.isFinite = true) : IsWhole (ofInt (truncate x)) :=
  isWhole_of_exact (ofInt_truncate hx).1 (ofInt_truncate hx).2

end Double

/-! ## Results settled to a kind -/

/-- The exact number that a result of the given kind keeps. -/
def Kind.settled (k : Kind) (q : ℚ) : ℚ :=
  if k = .integer then Double.towardZero q else q

/-- Settling a finite result keeps its integer part or all of it, and it stays finite. -/
theorem Kind.settle_exact (k : Kind) {x : Float} (hx : x.isFinite = true) :
    (k.settle x).isFinite = true ∧ Double.exact (k.settle x) = k.settled (Double.exact x) := by
  unfold Kind.settle Kind.settled
  by_cases hk : k = .integer
  · rw [if_pos ⟨hk, hx⟩, if_pos hk]
    exact Double.ofInt_truncate hx
  · rw [if_neg (fun h => hk h.1), if_neg hk]
    exact ⟨hx, rfl⟩

/-- A settled result is finite only if it was before. -/
theorem Kind.isFinite_of_settle {k : Kind} {x : Float} (h : (k.settle x).isFinite = true) :
    x.isFinite = true := by
  by_contra hx
  rw [Kind.settle, if_neg (fun hs => hx hs.2)] at h
  exact hx h

/-- Settled whole numbers are whole. -/
theorem Kind.settle_integer_isWhole {x : Float} (hx : x.isFinite = true) :
    Double.IsWhole (Kind.integer.settle x) := by
  rw [Kind.settle, if_pos ⟨rfl, hx⟩]
  exact Double.isWhole_ofInt_truncate hx

/-- Settling leaves numbers of their kind where they are. -/
theorem Kind.settled_of_isWhole {k : Kind} {x : Float} (hx : x.isFinite = true)
    (h : k = .integer → Double.IsWhole x) : k.settled (Double.exact x) = Double.exact x := by
  unfold Kind.settled
  split_ifs with hk
  · exact ((Double.isWhole_iff hx).mp (h hk)).symm
  · rfl

end TradeRules
