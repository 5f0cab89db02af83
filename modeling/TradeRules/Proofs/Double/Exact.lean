import TradeRules.Number.Double
import TradeRules.Proofs.Double.Arithmetic

/-!
# Doubles as exact numbers

`exact x` is the rational number that a finite double stands for.  `IsRounding z q` says that the
double `z` is the rounding of the rational `q`: finite exactly when the nearest grid point is in
range, and then that point.  Each operation on finite doubles is the rounding of the exact result, a
comparison of finite doubles compares the exact numbers, and a decimal literal is the rounding of
its exact value.

Doubles that are roundings of one number agree (`IsRounding.congr`), which is how an equation
between exact numbers becomes one between doubles.  A nonzero finite double is determined by its
exact number (`eq_of_exact_eq`).
-/

namespace TradeRules

namespace Double

open Float.Model Float.Model.UnpackedFloat

/-- The rational number that a finite double stands for, zero for the other doubles. -/
def exact (x : Float) : ℚ :=
  magnitude x.toModel.unpack

/-- Whether a double is the rounding of a rational number. -/
structure IsRounding (z : Float) (q : ℚ) : Prop where
  /-- It is finite unless the nearest grid point is out of range. -/
  finite_iff : z.isFinite = true ↔ InRange (nearest q)
  /-- When finite, it is that point. -/
  value : z.isFinite = true → exact z = nearest q

variable {x y z w : Float} {p q : ℚ}

/-! ## Finite doubles -/

theorem canonical_model (x : Float) : Canonical x.toModel.unpack :=
  canonical_unpack _

theorem unpack_finite (hx : x.isFinite = true) : x.toModel.unpack.isFinite = true :=
  hx

/-- The exact number of a finite double is on the grid. -/
@[simp] theorem nearest_exact (x : Float) : nearest (exact x) = exact x :=
  nearest_magnitude (canonical_model x)

/-- The exact number of a double is in range. -/
theorem inRange_exact (x : Float) : InRange (exact x) := by
  by_cases hf : x.toModel.unpack.isFinite = true
  · have h := isFinite_unpack_pack (canonical_model x) hf
    rw [unpack_pack (canonical_model x) (bounded_unpack _)] at h
    exact h.mp hf
  · have hzero : exact x = 0 := by
      unfold exact
      cases hu : x.toModel.unpack with
      | notANumber => rfl
      | infinity s => rfl
      | zero s => rfl
      | finite s m e hm => exact absurd (by rw [hu]; rfl) hf
    rw [hzero]
    norm_num [InRange]

/-- A packed number is the rounding of what the unpacked one stands for. -/
theorem isRounding_pack {u : UnpackedFloat} (h : Stands u q) :
    IsRounding (Float.ofModel (Float.Model.pack u)) q := by
  have hfin : (Float.ofModel (Float.Model.pack u)).isFinite = true ↔ InRange (nearest q) := by
    rw [← h.value]
    exact isFinite_unpack_pack h.canonical h.finite
  refine ⟨hfin, fun hz => ?_⟩
  rw [← h.value]
  show magnitude (UnpackedFloat.unpack Format.binary64 (UnpackedFloat.pack Format.binary64 u)) = _
  have hbounded : Bounded u := by
    cases hu : u with
    | notANumber => trivial
    | infinity s => trivial
    | zero s => trivial
    | finite s m e hm =>
      -- A larger exponent would have been packed as an infinity.
      by_contra hlarge
      have hexp : 971 < e := not_le.mp hlarge
      have hinf : (Float.ofModel (Float.Model.pack u)).isFinite = false := by
        show (UnpackedFloat.unpack Format.binary64
          (UnpackedFloat.pack Format.binary64 u)).isFinite = false
        rw [hu, unpack_pack_overflow hm hexp]
        rfl
      rw [hinf] at hz
      cases hz
  rw [unpack_pack h.canonical hbounded]

/-- Roundings of one number are finite together, and equal as numbers. -/
theorem IsRounding.congr (hz : IsRounding z q) (hw : IsRounding w q) (hf : z.isFinite = true) :
    w.isFinite = true ∧ exact w = exact z := by
  have hfin := hw.finite_iff.mpr (hz.finite_iff.mp hf)
  exact ⟨hfin, by rw [hw.value hfin, hz.value hf]⟩

/-- The rounding of a number on the grid and in range is that number. -/
theorem IsRounding.of_grid (hz : IsRounding z q) (hgrid : nearest q = q) (hrange : InRange q) :
    z.isFinite = true ∧ exact z = q := by
  have hfin := hz.finite_iff.mpr (by rwa [hgrid])
  exact ⟨hfin, by rw [hz.value hfin, hgrid]⟩

/-- The rounding of the exact number of a double is that number. -/
theorem IsRounding.of_exact (hz : IsRounding z (exact x)) : z.isFinite = true ∧ exact z = exact x :=
  hz.of_grid (nearest_exact x) (inRange_exact x)

theorem nearest_of_int {n : ℤ} (hn : |n| ≤ 2 ^ 53) : nearest n = n := by
  have h := nearest_of_grid (e := 0) hn (by norm_num)
  rwa [zpow_zero, mul_one] at h

/-- The rounding of an integer of at most fifty-three digits is that integer. -/
theorem IsRounding.of_int {n : ℤ} (hz : IsRounding z n) (hn : |n| ≤ 2 ^ 53) :
    z.isFinite = true ∧ exact z = n := by
  refine hz.of_grid (nearest_of_int hn) ?_
  have hcast : |(n : ℚ)| ≤ 2 ^ 53 := by exact_mod_cast hn
  exact lt_of_le_of_lt hcast (pow_lt_pow_right₀ (by norm_num) (by norm_num))

/-- A number between two integers of at most fifty-three digits is rounded to one between them. -/
theorem IsRounding.of_between {m n : ℤ} (hz : IsRounding z q) (hm : |m| ≤ 2 ^ 53)
    (hn : |n| ≤ 2 ^ 53) (hmq : m ≤ q) (hqn : q ≤ n) :
    z.isFinite = true ∧ m ≤ exact z ∧ exact z ≤ n := by
  have hlow : (m : ℚ) ≤ nearest q := nearest_of_int hm ▸ nearest_mono hmq
  have hhigh : nearest q ≤ n := nearest_of_int hn ▸ nearest_mono hqn
  have hrange : InRange (nearest q) := by
    have hm' : |(m : ℚ)| ≤ 2 ^ 53 := by exact_mod_cast hm
    have hn' : |(n : ℚ)| ≤ 2 ^ 53 := by exact_mod_cast hn
    have hle : |nearest q| ≤ 2 ^ 53 :=
      abs_le.mpr ⟨(abs_le.mp hm').1.trans hlow, hhigh.trans (abs_le.mp hn').2⟩
    exact lt_of_le_of_lt hle (pow_lt_pow_right₀ (by norm_num) (by norm_num))
  have hfin := hz.finite_iff.mpr hrange
  rw [hz.value hfin]
  exact ⟨hfin, hlow, hhigh⟩

/-! ## Operations -/

theorem add_isRounding (hx : x.isFinite = true) (hy : y.isFinite = true) :
    IsRounding (x + y) (exact x + exact y) :=
  isRounding_pack (add_stands (canonical_model x) (canonical_model y) hx hy)

theorem sub_isRounding (hx : x.isFinite = true) (hy : y.isFinite = true) :
    IsRounding (x - y) (exact x - exact y) :=
  isRounding_pack (sub_stands (canonical_model x) (canonical_model y) hx hy)

theorem mul_isRounding (hx : x.isFinite = true) (hy : y.isFinite = true) :
    IsRounding (x * y) (exact x * exact y) :=
  isRounding_pack (mul_stands (canonical_model x) (canonical_model y) hx hy)

theorem div_isRounding (hx : x.isFinite = true) (hy : y.isFinite = true) (h : exact y ≠ 0) :
    IsRounding (x / y) (exact x / exact y) :=
  isRounding_pack (div_stands hx hy h)

/-- A packed number is finite only if it was before. -/
theorem isFinite_of_pack {u : UnpackedFloat}
    (h : (Float.ofModel (Float.Model.pack u)).isFinite = true) : u.isFinite = true := by
  change (UnpackedFloat.unpack Format.binary64
    (UnpackedFloat.pack Format.binary64 u)).isFinite = true at h
  cases u with
  | notANumber =>
    rw [unpack_pack (u := .notANumber) trivial trivial] at h
    cases h
  | infinity s =>
    rw [unpack_pack (u := .infinity s) trivial trivial] at h
    cases h
  | zero s => rfl
  | finite s m e hm => rfl

/-- A sum is finite only if both operands are. -/
theorem isFinite_of_add (h : (x + y).isFinite = true) :
    x.isFinite = true ∧ y.isFinite = true := by
  have hu := isFinite_of_pack (u := .add .binary64 x.toModel.unpack y.toModel.unpack) h
  show x.toModel.unpack.isFinite = true ∧ y.toModel.unpack.isFinite = true
  generalize x.toModel.unpack = u, y.toModel.unpack = v at hu
  cases u <;> cases v <;> first
    | exact ⟨rfl, rfl⟩
    | cases hu
    | (simp only [UnpackedFloat.add] at hu; split at hu <;> cases hu)

/-- A difference is finite only if both operands are. -/
theorem isFinite_of_sub (h : (x - y).isFinite = true) :
    x.isFinite = true ∧ y.isFinite = true := by
  have hu := isFinite_of_pack (u := .sub .binary64 x.toModel.unpack y.toModel.unpack) h
  show x.toModel.unpack.isFinite = true ∧ y.toModel.unpack.isFinite = true
  generalize x.toModel.unpack = u, y.toModel.unpack = v at hu
  cases u <;> cases v <;> first
    | exact ⟨rfl, rfl⟩
    | cases hu
    | (simp only [UnpackedFloat.sub] at hu; split at hu <;> cases hu)

/-- A quotient is finite only if the dividend is, and the divisor is a number. -/
theorem isFinite_of_div (h : (x / y).isFinite = true) :
    x.isFinite = true ∧ y.isNaN = false := by
  have hu := isFinite_of_pack (u := .div .binary64 x.toModel.unpack y.toModel.unpack) h
  show x.toModel.unpack.isFinite = true ∧ y.toModel.unpack.isNaN = false
  generalize x.toModel.unpack = u, y.toModel.unpack = v at hu
  cases u <;> cases v <;> first | exact ⟨rfl, rfl⟩ | cases hu

theorem unpack_neg (x : Float) : (-x).toModel.unpack = x.toModel.unpack.neg := by
  have hc := canonical_model x
  have hb := bounded_unpack x.toModel.toBits.toBitVec
  refine unpack_pack ?_ ?_
  · cases hu : x.toModel.unpack <;> rw [hu] at hc <;> exact hc
  · show Bounded x.toModel.unpack.neg
    change Bounded x.toModel.unpack at hb
    cases hu : x.toModel.unpack <;> rw [hu] at hb <;> exact hb

@[simp] theorem neg_isFinite (x : Float) : (-x).isFinite = x.isFinite := by
  show (-x).toModel.unpack.isFinite = x.toModel.unpack.isFinite
  rw [unpack_neg]
  cases x.toModel.unpack <;> rfl

/-- Negation is exact. -/
@[simp] theorem exact_neg (x : Float) : exact (-x) = -exact x := by
  rw [exact, unpack_neg, magnitude_neg]
  rfl

/-- The negation of a rounding is the rounding of the negation. -/
theorem IsRounding.neg (h : IsRounding z q) : IsRounding (-z) (-q) := by
  refine ⟨?_, fun hf => ?_⟩
  · rw [neg_isFinite, h.finite_iff, nearest_neg, InRange, InRange, abs_neg]
  · rw [exact_neg, nearest_neg, h.value (by rwa [neg_isFinite] at hf)]

/-- The absolute value is exact. -/
theorem abs_exact (hx : x.isFinite = true) : x.abs.isFinite = true ∧ exact x.abs = |exact x| := by
  have h : IsRounding x.abs |exact x| := isRounding_pack (abs_stands (canonical_model x) hx)
  refine h.of_grid ?_ (by rw [InRange, abs_abs]; exact inRange_exact x)
  rcases abs_choice (exact x) with h' | h'
  · rw [h', nearest_exact]
  · rw [h', nearest_neg, nearest_exact]

/-! ## Comparisons -/

theorem compare_exact (hx : x.isFinite = true) (hy : y.isFinite = true) :
    UnpackedFloat.compare x.toModel.unpack y.toModel.unpack = some (cmp (exact x) (exact y)) :=
  compare_eq_cmp (canonical_model x) (canonical_model y) hx hy

theorem lt_iff_exact (hx : x.isFinite = true) (hy : y.isFinite = true) :
    x < y ↔ exact x < exact y := by
  show decide (UnpackedFloat.lt x.toModel.unpack y.toModel.unpack = true) = true ↔ _
  rw [decide_eq_true_iff, UnpackedFloat.lt, compare_exact hx hy, ← cmp_eq_lt_iff]
  simp

theorem le_iff_exact (hx : x.isFinite = true) (hy : y.isFinite = true) :
    x ≤ y ↔ exact x ≤ exact y := by
  show decide (UnpackedFloat.le x.toModel.unpack y.toModel.unpack = true) = true ↔ _
  rw [decide_eq_true_iff, UnpackedFloat.le, compare_exact hx hy, Option.any_some,
    ← not_lt, ← cmp_eq_gt_iff]
  cases cmp (exact x) (exact y) <;> simp [Ordering.isLE]

theorem beq_iff_exact (hx : x.isFinite = true) (hy : y.isFinite = true) :
    (x == y) = true ↔ exact x = exact y := by
  show UnpackedFloat.beq x.toModel.unpack y.toModel.unpack = true ↔ _
  rw [UnpackedFloat.beq, compare_exact hx hy, ← cmp_eq_eq_iff]
  simp

/-! ## Doubles determined by their exact number -/

theorem sign_eq_of_magnitude_pos {s : Sign} {m : ℕ} {e : ℤ} (hm : 0 < m) :
    0 < magnitude (.finite s m e hm) ↔ s = .positive := by
  have hpos := mantissa_pos hm e
  rw [magnitude_of_finite]
  cases s with
  | negative =>
    simp only [Sign.apply, Int.cast_neg, Int.cast_natCast]
    exact iff_of_false (by linarith) (by simp)
  | positive => exact iff_of_true (by simpa [Sign.apply] using hpos) rfl

/-- Nonzero canonical numbers of one value are the same. -/
theorem eq_of_magnitude_eq {u v : UnpackedFloat} (hu : Canonical u) (hv : Canonical v)
    (h : magnitude u = magnitude v) (hz : magnitude u ≠ 0) : u = v := by
  cases u with
  | notANumber => exact absurd rfl hz
  | infinity s => exact absurd rfl hz
  | zero s => exact absurd rfl hz
  | finite s m e hm =>
    cases v with
    | notANumber => exact absurd h hz
    | infinity t => exact absurd h hz
    | zero t => exact absurd h hz
    | finite t n f hn =>
      have hsign : s = t := by
        have hiff := sign_eq_of_magnitude_pos (s := s) (e := e) hm
        rw [h, sign_eq_of_magnitude_pos] at hiff
        cases s <;> cases t <;> simp_all
      subst hsign
      have habs : (m : ℚ) * 2 ^ e = n * 2 ^ f := by
        rw [magnitude_of_finite, magnitude_of_finite] at h
        cases s with
        | negative =>
          simp only [Sign.apply, Int.cast_neg, Int.cast_natCast] at h
          linarith
        | positive => exact_mod_cast h
      have hcmp := compare_mantissas hu hv
      rw [habs, cmp_self_eq_eq, Ordering.then_eq_eq, compare_eq_iff_eq, compare_eq_iff_eq] at hcmp
      obtain ⟨rfl, rfl⟩ := hcmp
      rfl

theorem eq_of_unpack_eq (h : x.toModel.unpack = y.toModel.unpack) : x = y :=
  Float.toBits_inj.mp (UInt64.toBitVec_inj.mp
    ((unpack_inj_of_valid x.toModel.valid y.toModel.valid).mp h))

/-- A nonzero double is determined by its exact number. -/
theorem eq_of_exact_eq (h : exact x = exact y) (hz : exact x ≠ 0) : x = y :=
  eq_of_unpack_eq (eq_of_magnitude_eq (canonical_model x) (canonical_model y) h hz)

/-- A finite double whose exact number is zero is one of the two zeros. -/
theorem unpack_of_exact_zero (hx : x.isFinite = true) (h : exact x = 0) :
    ∃ s, x.toModel.unpack = .zero s := by
  have hf := unpack_finite hx
  unfold exact at h
  cases hu : x.toModel.unpack with
  | notANumber => rw [hu] at hf; cases hf
  | infinity s => rw [hu] at hf; cases hf
  | zero s => exact ⟨s, rfl⟩
  | finite s m e hm =>
    rw [hu, magnitude_of_finite] at h
    have hpos := mantissa_pos hm e
    cases s with
    | negative =>
      simp only [Sign.apply, Int.cast_neg, Int.cast_natCast] at h
      linarith
    | positive =>
      simp only [Sign.apply, Int.cast_natCast] at h
      linarith

/-! ## Numerals -/

/-- An integer is rounded to the nearest grid point. -/
theorem modelOfInt_isRounding (n : ℤ) : IsRounding (.ofModel (.ofInt n)) n := by
  have h := isRounding_pack (normalize_stands n 0 .positive)
  rwa [zpow_zero, mul_one] at h

/-- An integer of at most fifty-three digits is exact. -/
theorem modelOfInt_exact {n : ℤ} (hn : |n| ≤ 2 ^ 53) :
    (Float.ofModel (.ofInt n)).isFinite = true ∧ exact (.ofModel (.ofInt n)) = n :=
  (modelOfInt_isRounding n).of_int hn

theorem exactlyRepresentable_eq :
    ∀ e : Fin 23, Float.exactlyRepresentablePowersOfTen[e] = .ofModel (.ofInt (10 ^ (e : ℕ))) := by
  decide +kernel

/-- The powers of ten that are kept as doubles are exact. -/
theorem exactlyRepresentable_exact (e : Fin 23) :
    (Float.exactlyRepresentablePowersOfTen[e]).isFinite = true ∧
      exact Float.exactlyRepresentablePowersOfTen[e] = 10 ^ (e : ℕ) := by
  have hsplit : ((10 ^ (e : ℕ) : ℤ) : ℚ) = ((5 ^ (e : ℕ) : ℤ) : ℚ) * 2 ^ ((e : ℕ) : ℤ) := by
    rw [zpow_natCast]
    push_cast
    rw [← mul_pow]
    norm_num
  have hfive : |(5 : ℤ) ^ (e : ℕ)| ≤ 2 ^ 53 := by
    rw [abs_of_nonneg (by positivity)]
    calc (5 : ℤ) ^ (e : ℕ) ≤ 5 ^ 22 := pow_le_pow_right₀ (by norm_num) (by omega)
      _ ≤ 2 ^ 53 := by norm_num
  rw [exactlyRepresentable_eq]
  have h := (modelOfInt_isRounding (10 ^ (e : ℕ))).of_grid
    (by rw [hsplit]; exact nearest_of_grid hfive (by omega)) ?_
  · push_cast at h
    exact h
  · have hle : ((10 ^ (e : ℕ) : ℤ) : ℚ) ≤ 10 ^ 22 := by
      push_cast
      exact pow_le_pow_right₀ (by norm_num) (by omega)
    rw [InRange, abs_of_nonneg (by positivity)]
    calc ((10 ^ (e : ℕ) : ℤ) : ℚ) ≤ 10 ^ 22 := hle
      _ < 2 ^ 74 := by norm_num
      _ ≤ 2 ^ 1024 := pow_le_pow_right₀ (by norm_num) (by norm_num)

theorem toUInt64_toFloat {m : ℕ} (hm : m < 2 ^ 53) :
    m.toUInt64.toFloat = .ofModel (.ofInt m) := by
  have h : m.toUInt64.toNat = m := by
    rw [Nat.toUInt64, UInt64.toNat_ofNat', Nat.mod_eq_of_lt]
    omega
  show Float.ofModel (.ofInt (m.toUInt64.toNat : ℤ)) = _
  rw [h]

/-- The exact value of digits with a decimal point moved to the left or to the right. -/
def scientific (m : ℕ) (left : Bool) (e : ℕ) : ℚ :=
  if left then m / 10 ^ e else m * 10 ^ e

/-- Digits and a power of ten that are both exact are divided or multiplied once. -/
theorem ofScientific_short_isRounding {m e : ℕ} (left : Bool) (hm : m < 2 ^ 53) (he : e ≤ 22) :
    IsRounding (Float.ofScientific m left e) (scientific m left e) := by
  have hpow := exactlyRepresentable_exact ⟨e, by omega⟩
  have hmod := modelOfInt_exact (n := m) (by
    rw [Nat.abs_cast]
    exact_mod_cast hm.le)
  have hne : (10 : ℚ) ^ e ≠ 0 := by positivity
  rw [← toUInt64_toFloat hm] at hmod
  have hval : Float.ofScientific m left e =
      if left then m.toUInt64.toFloat / Float.exactlyRepresentablePowersOfTen[(⟨e, by omega⟩ : Fin 23)]
      else m.toUInt64.toFloat * Float.exactlyRepresentablePowersOfTen[(⟨e, by omega⟩ : Fin 23)] := by
    unfold Float.ofScientific
    rw [dif_pos ⟨hm, he⟩]
    rfl
  rw [hval, scientific]
  split_ifs with hleft
  · have h := div_isRounding hmod.1 hpow.1 (by rw [hpow.2]; exact hne)
    rwa [hpow.2, hmod.2] at h
  · have h := mul_isRounding hmod.1 hpow.1
    rwa [hpow.2, hmod.2] at h

theorem nearest_two_pow (k : ℕ) : nearest (2 ^ k) = 2 ^ k := by
  have h := nearest_of_grid (n := 1) (e := k) (by norm_num) (by omega)
  rwa [Int.cast_one, one_mul, zpow_natCast] at h

/-- What is too large overflows. -/
theorem not_inRange_of_le (h : 2 ^ 1024 ≤ q) : ¬InRange (nearest q) := by
  have hle := nearest_mono h
  rw [nearest_two_pow] at hle
  exact not_lt.mpr (hle.trans (le_abs_self _))

/-- What is below half the least double is rounded to zero. -/
theorem nearest_tiny (h0 : 0 ≤ q) (h : q ≤ 2 ^ (-1076 : ℤ)) : nearest q = 0 := by
  have hlog : Int.log 2 ((2 : ℚ) ^ (-1076 : ℤ)) = -1076 :=
    log_eq (le_refl _) (zpow_lt_zpow_right₀ (by norm_num) (by norm_num))
  have hspace : spacing ((2 : ℚ) ^ (-1076 : ℤ)) = -1074 := by
    rw [spacing, hlog]
    norm_num
  have hquot : (2 : ℚ) ^ (-1076 : ℤ) / 2 ^ (-1074 : ℤ) = 1 / 4 := by
    rw [← zpow_sub₀ (by norm_num)]
    norm_num
  have hfloor : ⌊(1 / 4 : ℚ)⌋ = 0 := by norm_num
  have hhalf : halfEven (1 / 4) = 0 := by
    unfold halfEven
    rw [hfloor]
    norm_num
  have hzero : nearest ((2 : ℚ) ^ (-1076 : ℤ)) = 0 := by
    rw [nearest_of_nonneg (two_zpow_pos _).le, nearestMagnitude, hspace, hquot, hhalf]
    simp
  exact le_antisymm (hzero ▸ nearest_mono h) (nearest_nonneg h0)

theorem isRounding_zero (s : Sign) (h : nearest q = 0) :
    IsRounding (.ofModel (Float.Model.pack (.zero s))) q :=
  isRounding_pack ⟨trivial, rfl, by rw [magnitude_of_zero, h]⟩

/-- A positive number of digits and an exponent that is neither too large nor too small is rounded
once. -/
theorem modelOfScientific_isRounding (m : ℕ) (e : ℤ) :
    IsRounding (.ofModel (.ofScientific m e)) (m * 10 ^ e) := by
  show IsRounding (.ofModel (.pack (UnpackedFloat.ofScientific Format.binary64 m e))) _
  have hbits : (2 : ℤ) ^ Format.binary64.exponentBits = 2048 := rfl
  have hbase : (0 : ℚ) < 10 ^ e := zpow_pos (by norm_num) e
  unfold UnpackedFloat.ofScientific
  simp only [hbits]
  split_ifs with hm hlarge hsmall hsign
  · rw [hm]
    exact isRounding_zero _ (by simp)
  · -- Ten to such a power is out of range by itself.
    have hpow : (2 : ℚ) ^ 1024 ≤ m * 10 ^ e := by
      have hone : (1 : ℚ) ≤ m := by exact_mod_cast Nat.pos_of_ne_zero hm
      obtain ⟨k, rfl⟩ := Int.eq_ofNat_of_zero_le (show 0 ≤ e by omega)
      have hk : 1024 ≤ k := by omega
      rw [zpow_natCast]
      calc (2 : ℚ) ^ 1024 ≤ 2 ^ k := pow_le_pow_right₀ (by norm_num) hk
        _ ≤ 10 ^ k := pow_le_pow_left₀ (by norm_num) (by norm_num) k
        _ ≤ m * 10 ^ k := le_mul_of_one_le_left (by positivity) hone
    have hinf : (Float.ofModel (Float.Model.pack (.infinity .positive))).isFinite = false := rfl
    refine ⟨?_, by rw [hinf]; simp⟩
    rw [hinf]
    exact iff_of_false (by simp) (not_inRange_of_le hpow)
  · -- So many digits are needed before the point that nothing is left.
    refine isRounding_zero _ (nearest_tiny (mul_nonneg (Nat.cast_nonneg m) hbase.le) ?_)
    have hdigits : (m : ℚ) ≤ 2 ^ ((m.log2 : ℤ) + 1) := by
      have : (m : ℚ) ≤ ((2 ^ (m.log2 + 1) : ℕ) : ℚ) := by exact_mod_cast Nat.lt_log2_self.le
      push_cast at this
      exact_mod_cast this
    have hten : (10 : ℚ) ^ e ≤ 2 ^ e := by
      obtain ⟨k, hk⟩ := Int.eq_ofNat_of_zero_le (show 0 ≤ -e by omega)
      have he : e = -(k : ℤ) := by omega
      rw [he, zpow_neg, zpow_neg, zpow_natCast, zpow_natCast]
      exact inv_anti₀ (by positivity) (pow_le_pow_left₀ (by norm_num) (by norm_num) k)
    calc (m : ℚ) * 10 ^ e ≤ 2 ^ ((m.log2 : ℤ) + 1) * 2 ^ e :=
          mul_le_mul hdigits hten hbase.le (two_zpow_pos _).le
      _ = 2 ^ ((m.log2 : ℤ) + 1 + e) := (zpow_add₀ (by norm_num) _ _).symm
      _ ≤ 2 ^ (-1076 : ℤ) := zpow_le_zpow_right₀ (by norm_num) (by omega)
  · obtain ⟨k, rfl⟩ := Int.eq_ofNat_of_zero_le hsign
    have hshift : m <<< Format.binary64.mantissaBits = m * 2 ^ 53 := Nat.shiftLeft_eq _ _
    have henough : Enough (m <<< Format.binary64.mantissaBits * 10 ^ (k : ℤ).toNat)
        (-Format.binary64.mantissaBits + 0) := by
      refine .inl ?_
      have hfull : 2 ^ 52 ≤ m * 2 ^ 53 * 10 ^ (k : ℤ).toNat := by
        calc 2 ^ 52 ≤ 1 * 2 ^ 53 * 1 := by norm_num
          _ ≤ m * 2 ^ 53 * 10 ^ (k : ℤ).toNat :=
            Nat.mul_le_mul (Nat.mul_le_mul_right _ (Nat.pos_of_ne_zero hm))
              (Nat.pow_pos (by decide))
      rw [hshift, Nat.le_log2 (by omega)]
      exact hfull
    have hmant : 0 < m <<< Format.binary64.mantissaBits := by
      rw [hshift]
      exact Nat.mul_pos (Nat.pos_of_ne_zero hm) (by norm_num)
    have hten : 0 < 10 ^ (k : ℤ).toNat := Nat.pow_pos (by decide)
    have h := isRounding_pack (mul_finite_stands .positive .positive hmant hten henough)
    have hval : magnitude (.finite .positive (m <<< Format.binary64.mantissaBits)
          (-Format.binary64.mantissaBits) hmant) *
        magnitude (.finite .positive (10 ^ (k : ℤ).toNat) 0 hten) = m * 10 ^ (k : ℤ) := by
      rw [magnitude_of_finite, magnitude_of_finite, hshift]
      simp only [Sign.apply, Format.mantissaBits, Int.toNat_natCast]
      push_cast
      rw [zpow_natCast, mul_one, mul_assoc (m : ℚ),
        show (9007199254740992 : ℚ) * 2 ^ (-53 : ℤ) = 1 by norm_num, mul_one]
    rwa [hval] at h
  · obtain ⟨k, hk⟩ := Int.eq_ofNat_of_zero_le (show 0 ≤ -e by omega)
    have h := isRounding_pack (div_finite_stands .positive .positive (e := 0) (f := 0)
      (Nat.pos_iff_ne_zero.2 hm) (Nat.pow_pos (n := (-e).toNat) (show 0 < 10 by decide)))
    have hval : magnitude (.finite .positive m 0 (Nat.pos_iff_ne_zero.2 hm)) /
        magnitude (.finite .positive (10 ^ (-e).toNat) 0 (Nat.pow_pos (by decide))) =
        m * 10 ^ e := by
      have he : e = -(k : ℤ) := by omega
      rw [magnitude_of_finite, magnitude_of_finite, hk, he, zpow_neg, zpow_natCast]
      simp [Sign.apply, div_eq_mul_inv]
    rwa [hval] at h

/-- A decimal literal is the rounding of its exact value. -/
theorem ofScientific_isRounding (m : ℕ) (left : Bool) (e : ℕ) :
    IsRounding (Float.ofScientific m left e) (scientific m left e) := by
  by_cases hshort : m < 2 ^ 53 ∧ e ≤ 22
  · exact ofScientific_short_isRounding left hshort.1 hshort.2
  · have hval : Float.ofScientific m left e =
        .ofModel (.ofScientific m (if left then Int.negOfNat e else Int.ofNat e)) := by
      unfold Float.ofScientific
      rw [dif_neg hshort]
    rw [hval, scientific]
    have h := modelOfScientific_isRounding m (if left then Int.negOfNat e else Int.ofNat e)
    split_ifs with hleft
    · rwa [if_pos hleft, Int.negOfNat_eq, zpow_neg, Int.ofNat_eq_natCast, zpow_natCast,
        ← div_eq_mul_inv] at h
    · rwa [if_neg hleft, Int.ofNat_eq_natCast, zpow_natCast] at h

/-- A natural number is rounded to the nearest double. -/
theorem ofNat_isRounding (n : ℕ) : IsRounding (ofNat n) n := by
  have h := ofScientific_isRounding n false 0
  rwa [scientific, if_neg (by simp), pow_zero, mul_one] at h

/-- An integer is rounded to the nearest double. -/
theorem ofInt_isRounding (n : ℤ) : IsRounding (ofInt n) n := by
  have h := ofNat_isRounding n.natAbs
  unfold ofInt
  rw [← Int.cast_natCast] at h
  split_ifs with hn
  · have hcast : (n : ℚ) = -((n.natAbs : ℤ) : ℚ) := by
      rw [show (n.natAbs : ℤ) = -n by omega, Int.cast_neg, neg_neg]
    rw [hcast]
    exact h.neg
  · rwa [show (n.natAbs : ℤ) = n by omega] at h

/-! ## Small whole numbers -/

/-- A decimal literal of a small whole number stands for that number. -/
theorem ofScientific_exact (m : ℕ) (left : Bool) (e : ℕ) {n : ℤ} (h : scientific m left e = n)
    (hn : |n| ≤ 2 ^ 53) : (Float.ofScientific m left e).isFinite = true ∧
      exact (Float.ofScientific m left e) = n := by
  have hround := ofScientific_isRounding m left e
  rw [h] at hround
  exact hround.of_int hn

theorem zero_exact : (0.0 : Float).isFinite = true ∧ exact (0.0 : Float) = 0 := by
  have h := ofScientific_exact 0 true 1 (n := 0)
    (by norm_num [scientific]) (by norm_num)
  rw [Int.cast_zero] at h
  exact h

theorem one_exact : (1.0 : Float).isFinite = true ∧ exact (1.0 : Float) = 1 := by
  have h := ofScientific_exact 10 true 1 (n := 1)
    (by norm_num [scientific]) (by norm_num)
  rw [Int.cast_one] at h
  exact h

theorem hundred_exact : (100.0 : Float).isFinite = true ∧ exact (100.0 : Float) = 100 := by
  have h := ofScientific_exact 1000 true 1 (n := 100)
    (by norm_num [scientific]) (by norm_num)
  exact_mod_cast h

theorem ofInt_exact {n : ℤ} (hn : |n| ≤ 2 ^ 53) :
    (ofInt n).isFinite = true ∧ exact (ofInt n) = n :=
  (ofInt_isRounding n).of_int hn

theorem ofInt_zero_isFinite : (ofInt 0).isFinite = true :=
  (ofInt_exact (by norm_num)).1

theorem ofInt_one_isFinite : (ofInt 1).isFinite = true :=
  (ofInt_exact (by norm_num)).1

theorem ofInt_two_isFinite : (ofInt 2).isFinite = true :=
  (ofInt_exact (by norm_num)).1

theorem ofNat_exact {n : ℕ} (hn : n ≤ 2 ^ 53) :
    (ofNat n).isFinite = true ∧ exact (ofNat n) = n := by
  have h := IsRounding.of_int (n := (n : ℤ)) (by exact_mod_cast ofNat_isRounding n)
    (by rw [Nat.abs_cast]; exact_mod_cast hn)
  rw [Int.cast_natCast] at h
  exact h

end Double

end TradeRules
