import TradeRules.Proofs.Double.Shift

/-!
# Operations on unpacked doubles

Each operation of the kernel's model works on unpacked numbers and leaves a canonical one.  `Stands u q`
says that `u` is such a number and stands for the grid point nearest `q`.  On canonical finite
operands, sums, differences, products and quotients stand for the exact result in this sense
(`add_stands`, `sub_stands`, `mul_stands`, `div_stands`), and `compare_eq_cmp` says that comparison
compares the exact numbers.

Whether the result is small enough to be packed is not decided here.
-/

namespace TradeRules

namespace Double

open Float.Model Float.Model.UnpackedFloat

/-! ## Results of unpacked operations -/

/-- An unpacked double stands for the grid point nearest a rational. -/
structure Stands (u : UnpackedFloat) (q : ℚ) : Prop where
  canonical : Canonical u
  finite : u.isFinite = true
  value : magnitude u = nearest q

theorem magnitude_of_zero (s : Sign) : magnitude (.zero s) = 0 :=
  rfl

theorem magnitude_of_finite (s : Sign) (m : ℕ) (e : ℤ) (h : 0 < m) :
    magnitude (.finite s m e h) = (s.apply m : ℤ) * 2 ^ e :=
  rfl

/-- Numbers in canonical form are grid points. -/
theorem nearest_magnitude {u : UnpackedFloat} (h : Canonical u) :
    nearest (magnitude u) = magnitude u := by
  cases u with
  | notANumber => exact nearest_zero
  | infinity s => exact nearest_zero
  | zero s => exact nearest_zero
  | finite s m e hm =>
    rw [magnitude_of_finite]
    have hlt : (m : ℤ) < 2 ^ 53 := by exact_mod_cast h.1
    refine nearest_of_grid ?_ h.2.1
    cases s
    · rw [Sign.apply, abs_neg, Nat.abs_cast]
      exact hlt.le
    · rw [Sign.apply, Nat.abs_cast]
      exact hlt.le

theorem Stands.self {u : UnpackedFloat} (hc : Canonical u) (hf : u.isFinite = true) :
    Stands u (magnitude u) :=
  ⟨hc, hf, (nearest_magnitude hc).symm⟩

theorem Stands.zero (s : Sign) : Stands (.zero s) 0 :=
  ⟨trivial, rfl, nearest_zero.symm⟩

/-- Rounding with a sign stands for the signed number. -/
theorem Rounds.stands {u : UnpackedFloat} {s : Sign} {q : ℚ} (h : Rounds u s q) (hq : 0 < q) :
    Stands u ((s.apply 1 : ℤ) * q) := by
  refine ⟨h.canonical, h.finite, ?_⟩
  rw [h.value]
  cases s with
  | negative => simp [Sign.apply, nearest_of_nonneg hq.le]
  | positive => simp [Sign.apply, nearest_of_nonneg hq.le]

theorem log2_mul_two_pow {m : ℕ} (hm : m ≠ 0) (k : ℕ) : (m * 2 ^ k).log2 = m.log2 + k := by
  induction k with
  | zero => simp
  | succ k ih =>
    have hpos : m * 2 ^ k ≠ 0 := by positivity
    rw [pow_succ', mul_left_comm, Nat.log2_two_mul hpos, ih]
    rfl

/-- A mantissa without a rest is rounded to the nearest grid point. -/
theorem round_spec (s : Sign) {m : ℕ} (hm : 0 < m) (e : ℤ) :
    Rounds (UnpackedFloat.round Format.binary64 s m e) s (m * 2 ^ e) := by
  obtain ⟨k, hk⟩ : ∃ k, k = (e - Format.binary64.targetExponent (totalExponent m e)).toNat :=
    ⟨_, rfl⟩
  have hshift : UnpackedFloat.round Format.binary64 s m e =
      roundWithAccuracy Format.binary64 s (m <<< k) (e - k) .exact := by
    rw [hk]
    rfl
  have hval : (m : ℚ) * 2 ^ e = ((m <<< k : ℕ) : ℚ) * 2 ^ (e - k) := by
    rw [Nat.shiftLeft_eq, zpow_sub₀ (by norm_num), zpow_natCast]
    push_cast
    field_simp
  have hpos : 0 < m <<< k := by
    rw [Nat.shiftLeft_eq]
    positivity
  rw [hshift, hval]
  refine roundWithAccuracy_spec s rfl (by exact_mod_cast hpos) ?_
  rw [targetExponent_eq] at hk
  rw [Enough, Nat.shiftLeft_eq, log2_mul_two_pow hm.ne']
  omega

/-- An integer multiple of a power of two is rounded to the nearest grid point. -/
theorem normalize_stands (n e : ℤ) (z : Sign) :
    Stands (UnpackedFloat.normalize Format.binary64 n e z) (n * 2 ^ e) := by
  unfold UnpackedFloat.normalize
  rcases lt_trichotomy n 0 with hn | rfl | hn
  · rw [compare_lt_iff_lt.mpr hn]
    have hpos : 0 < (-n).toNat := by omega
    have hcast : (((-n).toNat : ℕ) : ℚ) = -n := by
      have : (((-n).toNat : ℕ) : ℤ) = -n := by omega
      exact_mod_cast this
    have h := (round_spec .negative hpos e).stands
      (mul_pos (by exact_mod_cast hpos) (two_zpow_pos e))
    rw [hcast] at h
    simpa [Sign.apply] using h
  · rw [compare_eq_iff_eq.mpr rfl]
    simpa using Stands.zero z
  · rw [compare_gt_iff_gt.mpr hn]
    have hpos : 0 < n.toNat := by omega
    have hcast : ((n.toNat : ℕ) : ℚ) = n := by
      have : ((n.toNat : ℕ) : ℤ) = n := by omega
      exact_mod_cast this
    have h := (round_spec .positive hpos e).stands
      (mul_pos (by exact_mod_cast hpos) (two_zpow_pos e))
    rw [hcast] at h
    simpa [Sign.apply] using h

/-! ## The operations -/

theorem decreaseExponent_fst {m : ℕ} {e t : ℤ} (h : t ≤ e) :
    ((decreaseExponent m e t).1 : ℚ) * 2 ^ t = m * 2 ^ e := by
  obtain ⟨k, hk⟩ := Int.eq_ofNat_of_zero_le (sub_nonneg.mpr h)
  have hfst : (decreaseExponent m e t).1 = m * 2 ^ k := by
    simp [decreaseExponent, hk, Nat.shiftLeft_eq]
  have he : e = k + t := by omega
  rw [hfst, he, zpow_add₀ (by norm_num), zpow_natCast]
  push_cast
  ring

/-- Two finite numbers written over the smaller exponent. -/
theorem magnitude_aligned (s : Sign) {m : ℕ} {e t : ℤ} (hm : 0 < m) (h : t ≤ e) :
    magnitude (.finite s m e hm) = (s.apply (decreaseExponent m e t).1 : ℤ) * 2 ^ t := by
  rw [magnitude_of_finite, sign_apply_cast, sign_apply_cast s (decreaseExponent m e t).1]
  push_cast
  rw [mul_assoc, mul_assoc, decreaseExponent_fst h]

@[simp] theorem magnitude_neg (u : UnpackedFloat) : magnitude u.neg = -magnitude u := by
  cases u with
  | notANumber => simp [UnpackedFloat.neg, magnitude]
  | infinity s => simp [UnpackedFloat.neg, magnitude]
  | zero s => simp [UnpackedFloat.neg, magnitude]
  | finite s m e hm =>
    have hneg : (-s).apply (m : ℤ) = -s.apply m := by
      cases s
      · exact (neg_neg _).symm
      · rfl
    rw [UnpackedFloat.neg, magnitude_of_finite, magnitude_of_finite, hneg]
    push_cast
    ring

theorem neg_stands {u : UnpackedFloat} {q : ℚ} (h : Stands u q) : Stands u.neg (-q) := by
  refine ⟨?_, ?_, by rw [magnitude_neg, h.value, nearest_neg]⟩
  · cases u <;> exact h.canonical
  · cases u <;> exact h.finite

theorem abs_stands {u : UnpackedFloat} (hc : Canonical u) (hf : u.isFinite = true) :
    Stands u.abs |magnitude u| := by
  cases u with
  | notANumber => cases hf
  | infinity s => cases hf
  | zero s =>
    rw [magnitude_of_zero, abs_zero]
    exact Stands.zero .positive
  | finite s m e hm =>
    have habs : |magnitude (.finite s m e hm)| = magnitude (.finite .positive m e hm) := by
      have hpow := two_zpow_pos e
      cases s <;> simp [magnitude, Sign.apply, abs_mul, abs_of_pos hpow]
    rw [habs]
    exact Stands.self (u := .finite .positive m e hm) hc rfl

theorem add_stands {u v : UnpackedFloat} (hu : Canonical u) (hv : Canonical v)
    (fu : u.isFinite = true) (fv : v.isFinite = true) :
    Stands (UnpackedFloat.add Format.binary64 u v) (magnitude u + magnitude v) := by
  cases u with
  | notANumber => cases fu
  | infinity s => cases fu
  | zero s =>
    rw [magnitude_of_zero, zero_add]
    cases v with
    | notANumber => cases fv
    | infinity t => cases fv
    | zero t => cases s <;> cases t <;> exact Stands.zero _
    | finite t n f hn => exact Stands.self hv fv
  | finite s m e hm =>
    cases v with
    | notANumber => cases fv
    | infinity t => cases fv
    | zero t =>
      rw [magnitude_of_zero, add_zero]
      exact Stands.self hu fu
    | finite t n f hn =>
      rw [magnitude_aligned s hm (min_le_left e f), magnitude_aligned t hn (min_le_right e f),
        ← add_mul, ← Int.cast_add]
      exact normalize_stands _ _ _

theorem sub_stands {u v : UnpackedFloat} (hu : Canonical u) (hv : Canonical v)
    (fu : u.isFinite = true) (fv : v.isFinite = true) :
    Stands (UnpackedFloat.sub Format.binary64 u v) (magnitude u - magnitude v) := by
  cases u with
  | notANumber => cases fu
  | infinity s => cases fu
  | zero s =>
    rw [magnitude_of_zero, zero_sub]
    cases v with
    | notANumber => cases fv
    | infinity t => cases fv
    | zero t =>
      rw [magnitude_of_zero, neg_zero]
      cases s <;> cases t <;> exact Stands.zero _
    | finite t n f hn => exact neg_stands (Stands.self hv fv)
  | finite s m e hm =>
    cases v with
    | notANumber => cases fv
    | infinity t => cases fv
    | zero t =>
      rw [magnitude_of_zero, sub_zero]
      exact Stands.self hu fu
    | finite t n f hn =>
      rw [magnitude_aligned s hm (min_le_left e f), magnitude_aligned t hn (min_le_right e f),
        ← sub_mul, ← Int.cast_sub]
      exact normalize_stands _ _ _

theorem sign_mul_apply (s t : Sign) : (s * t).apply 1 = s.apply 1 * t.apply 1 := by
  cases s <;> cases t <;> rfl

theorem sign_div_apply (s t : Sign) : (s / t).apply 1 = s.apply 1 * t.apply 1 := by
  cases s <;> cases t <;> rfl

/-- A product has digits enough if one mantissa is full, and a small exponent otherwise. -/
theorem enough_mul {m n : ℕ} {e f : ℤ} (hm : 0 < m) (hn : 0 < n)
    (hu : 2 ^ 52 ≤ m ∨ e = -1074) (hv : 2 ^ 52 ≤ n ∨ f = -1074) : Enough (m * n) (e + f) := by
  rcases hu with hu | hu
  · refine .inl ?_
    rw [Nat.le_log2 (by positivity)]
    exact hu.trans (Nat.le_mul_of_pos_right m hn)
  rcases hv with hv | hv
  · refine .inl ?_
    rw [Nat.le_log2 (by positivity)]
    exact hv.trans (Nat.le_mul_of_pos_left n hm)
  · exact .inr (by omega)

/-- The product of two mantissas with enough digits is rounded once. -/
theorem mul_finite_stands (s t : Sign) {m n : ℕ} {e f : ℤ} (hm : 0 < m) (hn : 0 < n)
    (henough : Enough (m * n) (e + f)) :
    Stands (UnpackedFloat.mul Format.binary64 (.finite s m e hm) (.finite t n f hn))
      (magnitude (.finite s m e hm) * magnitude (.finite t n f hn)) := by
  have hpos : 0 < m * n := Nat.mul_pos hm hn
  have h := (roundWithAccuracy_spec (s * t) (a := .exact) (m := m * n) rfl
    (by exact_mod_cast hpos) henough).stands (mul_pos (by exact_mod_cast hpos) (two_zpow_pos _))
  have hval : magnitude (.finite s m e hm) * magnitude (.finite t n f hn) =
      (((s * t).apply 1 : ℤ) : ℚ) * (((m * n : ℕ) : ℚ) * 2 ^ (e + f)) := by
    rw [magnitude_of_finite, magnitude_of_finite, sign_apply_cast, sign_apply_cast t,
      sign_mul_apply, zpow_add₀ (by norm_num)]
    push_cast
    ring
  rw [hval]
  exact h

theorem mul_stands {u v : UnpackedFloat} (hu : Canonical u) (hv : Canonical v)
    (fu : u.isFinite = true) (fv : v.isFinite = true) :
    Stands (UnpackedFloat.mul Format.binary64 u v) (magnitude u * magnitude v) := by
  cases u with
  | notANumber => cases fu
  | infinity s => cases fu
  | zero s =>
    rw [magnitude_of_zero, zero_mul]
    cases v with
    | notANumber => cases fv
    | infinity t => cases fv
    | zero t => exact Stands.zero _
    | finite t n f hn => exact Stands.zero _
  | finite s m e hm =>
    cases v with
    | notANumber => cases fv
    | infinity t => cases fv
    | zero t =>
      rw [magnitude_of_zero, mul_zero]
      exact Stands.zero _
    | finite t n f hn => exact mul_finite_stands s t hm hn (enough_mul hm hn hu.2.2 hv.2.2)

/-- The integer quotient with its remainder describes the exact quotient. -/
theorem describes_div (m n : ℕ) (hn : 0 < n) :
    Describes (m / n) ((m : ℚ) / n) (accuracyOfFraction (m % n) n) := by
  have hn' : (0 : ℚ) < n := by exact_mod_cast hn
  have hsplit : (m : ℚ) / n = ((m / n : ℕ) : ℚ) + ((m % n : ℕ) : ℚ) / n := by
    have : (m : ℚ) = n * ((m / n : ℕ) : ℚ) + ((m % n : ℕ) : ℚ) := by
      exact_mod_cast (Nat.div_add_mod m n).symm
    rw [div_eq_iff hn'.ne', add_mul, div_mul_cancel₀ _ hn'.ne']
    linarith
  have hlt : ((m % n : ℕ) : ℚ) < n := by exact_mod_cast Nat.mod_lt m hn
  unfold accuracyOfFraction
  split_ifs with hz
  · rw [Describes, hsplit, hz]
    simp
  have hpos : (0 : ℚ) < ((m % n : ℕ) : ℚ) := by exact_mod_cast Nat.pos_of_ne_zero hz
  rw [hsplit]
  rcases lt_trichotomy (2 * (m % n)) n with hc | hc | hc
  · rw [compare_lt_iff_lt.mpr hc]
    have hc' : (2 : ℚ) * ((m % n : ℕ) : ℚ) < n := by exact_mod_cast hc
    have : ((m % n : ℕ) : ℚ) / n < 1 / 2 := by
      rw [div_lt_iff₀ hn']
      linarith
    exact ⟨by linarith [div_pos hpos hn'], by linarith⟩
  · rw [compare_eq_iff_eq.mpr hc]
    have hc' : (2 : ℚ) * ((m % n : ℕ) : ℚ) = n := by exact_mod_cast hc
    have : ((m % n : ℕ) : ℚ) / n = 1 / 2 := by
      rw [div_eq_iff hn'.ne']
      linarith
    rw [Describes, this]
  · rw [compare_gt_iff_gt.mpr hc]
    have hc' : (n : ℚ) < 2 * ((m % n : ℕ) : ℚ) := by exact_mod_cast hc
    have h1 : 1 / 2 < ((m % n : ℕ) : ℚ) / n := by
      rw [lt_div_iff₀ hn']
      linarith
    have h2 : ((m % n : ℕ) : ℚ) / n < 1 := by
      rw [div_lt_iff₀ hn']
      linarith
    exact ⟨by linarith, by linarith⟩

/-- The dividend is shifted until the quotient has digits enough. -/
theorem enough_div {m n : ℕ} (hm : 0 < m) (hn : 0 < n) {e f t : ℤ}
    (ht : t = min (e - f)
      (Format.binary64.targetExponent (totalExponent m e - totalExponent n f))) :
    Enough (m * 2 ^ (e - f - t).toNat / n) t := by
  simp only [Format.targetExponent, totalExponent, Format.mantissaBits, Format.minExponent] at ht
  by_cases hlow : t ≤ -1074
  · exact .inr hlow
  have hshift : 53 + n.log2 ≤ m.log2 + (e - f - t).toNat := by omega
  have hpow : 2 ^ 52 * 2 ^ (n.log2 + 1) ≤ m * 2 ^ (e - f - t).toNat := by
    calc 2 ^ 52 * 2 ^ (n.log2 + 1) = 2 ^ (53 + n.log2) := by ring
      _ ≤ 2 ^ (m.log2 + (e - f - t).toNat) := Nat.pow_le_pow_right (by norm_num) hshift
      _ = 2 ^ m.log2 * 2 ^ (e - f - t).toNat := pow_add _ _ _
      _ ≤ m * 2 ^ (e - f - t).toNat := Nat.mul_le_mul_right _ (Nat.log2_self_le hm.ne')
  have hquot : 2 ^ 52 ≤ m * 2 ^ (e - f - t).toNat / n := by
    rw [Nat.le_div_iff_mul_le hn]
    exact (Nat.mul_le_mul_left _ Nat.lt_log2_self.le).trans hpow
  exact .inl ((Nat.le_log2 (by omega)).mpr hquot)

/-- The quotient of two finite nonzero numbers is rounded once. -/
theorem div_finite_stands (s t : Sign) {m n : ℕ} {e f : ℤ} (hm : 0 < m) (hn : 0 < n) :
    Stands (UnpackedFloat.div Format.binary64 (.finite s m e hm) (.finite t n f hn))
      (magnitude (.finite s m e hm) / magnitude (.finite t n f hn)) := by
  obtain ⟨low, hlow⟩ : ∃ low, low = min (e - f)
      (Format.binary64.targetExponent (totalExponent m e - totalExponent n f)) := ⟨_, rfl⟩
  obtain ⟨k, hk⟩ : ∃ k, k = (e - f - low).toNat := ⟨_, rfl⟩
  have hle : low ≤ e - f := by
    rw [hlow]
    exact min_le_left _ _
  have hpos : (0 : ℚ) < ((m * 2 ^ k : ℕ) : ℚ) / n := by positivity
  have hdiv : UnpackedFloat.div Format.binary64 (.finite s m e hm) (.finite t n f hn) =
      roundWithAccuracy Format.binary64 (s / t) (m * 2 ^ k / n) low
        (accuracyOfFraction (m * 2 ^ k % n) n) := by
    rw [hk, hlow, ← Nat.shiftLeft_eq]
    rfl
  have henough : Enough (m * 2 ^ k / n) low := hk ▸ enough_div hm hn hlow
  have hval : magnitude (.finite s m e hm) / magnitude (.finite t n f hn) =
      (((s / t).apply 1 : ℤ) : ℚ) * (((m * 2 ^ k : ℕ) : ℚ) / n * 2 ^ low) := by
    have hexp : e = k + low + f := by omega
    have hpow := (two_zpow_pos f).ne'
    have hsign : ((t.apply 1 : ℤ) : ℚ) * (t.apply 1 : ℤ) = 1 := by cases t <;> simp [Sign.apply]
    have hsign' : ((t.apply 1 : ℤ) : ℚ) ≠ 0 := left_ne_zero_of_mul_eq_one hsign
    rw [magnitude_of_finite, magnitude_of_finite, sign_apply_cast, sign_apply_cast t,
      sign_div_apply, hexp, zpow_add₀ (by norm_num), zpow_add₀ (by norm_num), zpow_natCast]
    push_cast
    field_simp
    rw [sq, hsign, mul_one]
  rw [hdiv, hval]
  exact (roundWithAccuracy_spec (s / t) (describes_div _ n hn) hpos henough).stands
    (mul_pos hpos (two_zpow_pos _))

theorem div_stands {u v : UnpackedFloat} (fu : u.isFinite = true) (fv : v.isFinite = true)
    (hv : magnitude v ≠ 0) :
    Stands (UnpackedFloat.div Format.binary64 u v) (magnitude u / magnitude v) := by
  cases v with
  | notANumber => cases fv
  | infinity t => cases fv
  | zero t => exact absurd rfl hv
  | finite t n f hn =>
    cases u with
    | notANumber => cases fu
    | infinity s => cases fu
    | zero s =>
      rw [magnitude_of_zero, zero_div]
      exact Stands.zero _
    | finite s m e hm => exact div_finite_stands s t hm hn

/-! ## Comparison -/

/-- With a larger exponent a canonical mantissa is full, so the number is larger. -/
theorem mantissa_lt_of_exponent_lt {m n : ℕ} {e f : ℤ} (hm : m < 2 ^ 53) (he : -1074 ≤ e)
    (hn : 2 ^ 52 ≤ n ∨ f = -1074) (h : e < f) : (m : ℚ) * 2 ^ e < n * 2 ^ f := by
  have hfull : (2 : ℚ) ^ 52 ≤ n := by
    have : 2 ^ 52 ≤ n := by omega
    exact_mod_cast this
  calc (m : ℚ) * 2 ^ e < 2 ^ 53 * 2 ^ e :=
        mul_lt_mul_of_pos_right (by exact_mod_cast hm) (two_zpow_pos e)
    _ = 2 ^ (53 + e) := by rw [zpow_add₀ (by norm_num)]; norm_num
    _ ≤ 2 ^ (52 + f) := zpow_le_zpow_right₀ (by norm_num) (by omega)
    _ = 2 ^ 52 * 2 ^ f := by rw [zpow_add₀ (by norm_num)]; norm_num
    _ ≤ n * 2 ^ f := mul_le_mul_of_nonneg_right hfull (two_zpow_pos f).le

/-- Exponents, then mantissas, order the positive numbers in canonical form. -/
theorem compare_mantissas {m n : ℕ} {e f : ℤ} (hm : m < 2 ^ 53 ∧ -1074 ≤ e ∧ (2 ^ 52 ≤ m ∨ e = -1074))
    (hn : n < 2 ^ 53 ∧ -1074 ≤ f ∧ (2 ^ 52 ≤ n ∨ f = -1074)) :
    (compare e f).then (compare m n) = cmp ((m : ℚ) * 2 ^ e) (n * 2 ^ f) := by
  rcases lt_trichotomy e f with h | rfl | h
  · rw [compare_lt_iff_lt.mpr h, cmp_eq_lt_iff _ _ |>.mpr
      (mantissa_lt_of_exponent_lt hm.1 hm.2.1 hn.2.2 h)]
    rfl
  · have hpow := two_zpow_pos e
    rw [compare_eq_iff_eq.mpr rfl]
    rcases lt_trichotomy m n with h | rfl | h
    · rw [compare_lt_iff_lt.mpr h, (cmp_eq_lt_iff _ _).mpr
        (mul_lt_mul_of_pos_right (by exact_mod_cast h) hpow)]
      rfl
    · rw [compare_eq_iff_eq.mpr rfl, cmp_self_eq_eq]
      rfl
    · rw [compare_gt_iff_gt.mpr h, (cmp_eq_gt_iff _ _).mpr
        (mul_lt_mul_of_pos_right (by exact_mod_cast h) hpow)]
      rfl
  · rw [compare_gt_iff_gt.mpr h, cmp_eq_gt_iff _ _ |>.mpr
      (mantissa_lt_of_exponent_lt hn.1 hn.2.1 hm.2.2 h)]
    rfl

/-- Negation reverses the order. -/
theorem cmp_neg (x y : ℚ) : cmp (-x) (-y) = cmp y x := by
  rw [← neg_one_mul x, ← neg_one_mul y]
  exact cmp_mul_neg_left (by norm_num) x y

theorem mantissa_pos {m : ℕ} (hm : 0 < m) (e : ℤ) : (0 : ℚ) < m * 2 ^ e :=
  mul_pos (by exact_mod_cast hm) (two_zpow_pos e)

/-- Finite numbers are compared as the exact numbers are. -/
theorem compare_eq_cmp {u v : UnpackedFloat} (hu : Canonical u) (hv : Canonical v)
    (fu : u.isFinite = true) (fv : v.isFinite = true) :
    UnpackedFloat.compare u v = some (cmp (magnitude u) (magnitude v)) := by
  cases u with
  | notANumber => cases fu
  | infinity s => cases fu
  | zero s =>
    cases v with
    | notANumber => cases fv
    | infinity t => cases fv
    | zero t =>
      rw [magnitude_of_zero, magnitude_of_zero, cmp_self_eq_eq]
      rfl
    | finite t n f hn =>
      have hpos := mantissa_pos hn f
      rw [magnitude_of_zero, magnitude_of_finite]
      cases t with
      | negative =>
        rw [Sign.apply, (cmp_eq_gt_iff _ _).mpr (by push_cast; linarith)]
        rfl
      | positive =>
        rw [Sign.apply, (cmp_eq_lt_iff _ _).mpr (by push_cast; linarith)]
        rfl
  | finite s m e hm =>
    have hpos := mantissa_pos hm e
    cases v with
    | notANumber => cases fv
    | infinity t => cases fv
    | zero t =>
      rw [magnitude_of_zero, magnitude_of_finite]
      cases s with
      | negative =>
        rw [Sign.apply, (cmp_eq_lt_iff _ _).mpr (by push_cast; linarith)]
        rfl
      | positive =>
        rw [Sign.apply, (cmp_eq_gt_iff _ _).mpr (by push_cast; linarith)]
        rfl
    | finite t n f hn =>
      have hpos' := mantissa_pos hn f
      rw [magnitude_of_finite, magnitude_of_finite]
      cases s <;> cases t <;> simp only [Sign.apply]
      · show some ((compare e f).then (compare m n)).swap = _
        rw [compare_mantissas hu hv, cmp_swap]
        push_cast
        rw [neg_mul, neg_mul, cmp_neg]
      · rw [(cmp_eq_lt_iff _ _).mpr (by push_cast; linarith)]
        rfl
      · rw [(cmp_eq_gt_iff _ _).mpr (by push_cast; linarith)]
        rfl
      · exact congrArg some (compare_mantissas hu hv)

end Double

end TradeRules
