import TradeRules.Proofs.Double.Unpacked

/-!
# Rounding by shifts

The kernel's model rounds a mantissa by shifting it to the exponent of its leading digit.  The
digits shifted out leave an accuracy behind: whether there was a rest, and on which side of one half
it lay.  `Describes m x a` says that the mantissa `m` with the accuracy `a` stands for the exact
quotient `x`.  Shifts preserve it (`Describes.shiftRight`), and rounding a described quotient yields
its nearest integer (`Describes.rounded`).

The main statement, `roundWithAccuracy_spec`, follows: the rounded number is the point of the grid
nearest the exact one, in canonical form.
-/

namespace TradeRules

namespace Double

open Float.Model Float.Model.UnpackedFloat

/-! ## Mantissas with a rest -/

/-- Whether a mantissa with an accuracy stands for an exact quotient. -/
def Describes (m : ℕ) (x : ℚ) : Accuracy → Prop
  | .exact => x = m
  | .inexact .lt => m < x ∧ x < m + 1 / 2
  | .inexact .eq => x = m + 1 / 2
  | .inexact .gt => m + 1 / 2 < x ∧ x < m + 1

/-- The mantissa is the integer part. -/
theorem Describes.bounds {m : ℕ} {x : ℚ} {a : Accuracy} (h : Describes m x a) :
    m ≤ x ∧ x < m + 1 := by
  cases a with
  | exact => exact ⟨h.ge, by rw [h]; linarith⟩
  | inexact o =>
    cases o with
    | lt => exact ⟨h.1.le, by linarith [h.2]⟩
    | eq => rw [Describes] at h; constructor <;> linarith
    | gt => exact ⟨by linarith [h.1], h.2⟩

theorem Describes.floor {m : ℕ} {x : ℚ} {a : Accuracy} (h : Describes m x a) : ⌊x⌋ = m := by
  rw [Int.floor_eq_iff]
  exact_mod_cast h.bounds

/-- Rounding by the accuracy yields the nearest integer. -/
theorem Describes.rounded {m : ℕ} {x : ℚ} {a : Accuracy} (h : Describes m x a) :
    (a.roundToNearestEven m : ℤ) = halfEven x := by
  unfold halfEven
  rw [h.floor]
  push_cast
  cases a with
  | exact =>
    rw [if_pos (by rw [h]; norm_num)]
    rfl
  | inexact o =>
    cases o with
    | lt =>
      rw [if_pos (by linarith [h.2])]
      rfl
    | eq =>
      rw [Describes] at h
      rw [if_neg (by linarith), if_neg (by linarith)]
      simp only [Accuracy.roundToNearestEven]
      split_ifs <;> omega
    | gt =>
      rw [if_neg (by linarith [h.1]), if_pos (by linarith [h.1])]
      simp [Accuracy.roundToNearestEven]

/-- One digit shifted out halves the quotient. -/
theorem Describes.shiftRightOne {em : ExtendedMantissa} {x : ℚ}
    (h : Describes em.mantissa x em.accuracy) :
    Describes em.shiftRightOne.mantissa (x / 2) em.shiftRightOne.accuracy := by
  obtain ⟨m, r, s⟩ := em
  have hsplit : (m : ℚ) = 2 * ((m / 2 : ℕ) : ℚ) + ((m % 2 : ℕ) : ℚ) := by
    exact_mod_cast (Nat.div_add_mod m 2).symm
  -- The last digit becomes the round bit, and what was left before becomes sticky.
  rcases Nat.mod_two_eq_zero_or_one m with hmod | hmod <;> rw [hmod] at hsplit
  · have hbit : (m % 2 != 0) = false := by simp [hmod]
    cases r <;> cases s <;>
      simp only [ExtendedMantissa.accuracy, ExtendedMantissa.shiftRightOne, hbit, Bool.or_false,
        Bool.or_true, Describes, Nat.cast_zero] at h hsplit ⊢ <;>
      (try constructor) <;> linarith
  · have hbit : (m % 2 != 0) = true := by simp [hmod]
    cases r <;> cases s <;>
      simp only [ExtendedMantissa.accuracy, ExtendedMantissa.shiftRightOne, hbit, Bool.or_false,
        Bool.or_true, Describes, Nat.cast_one] at h hsplit ⊢ <;>
      (try constructor) <;> linarith

/-- Digits shifted out divide the quotient by a power of two. -/
theorem Describes.shiftRight {em : ExtendedMantissa} {x : ℚ}
    (h : Describes em.mantissa x em.accuracy) (k : ℕ) :
    Describes (em >>> k).mantissa (x / 2 ^ k) (em >>> k).accuracy := by
  induction k with
  | zero => simpa [HShiftRight.hShiftRight, Nat.repeat] using h
  | succ k ih =>
    rw [pow_succ, ← div_div]
    exact ih.shiftRightOne

theorem ofMantissaAndAccuracy_mantissa (m : ℕ) (a : Accuracy) :
    (ExtendedMantissa.ofMantissaAndAccuracy m a).mantissa = m := by
  rcases a with _ | o
  · rfl
  · cases o <;> rfl

theorem ofMantissaAndAccuracy_accuracy (m : ℕ) (a : Accuracy) :
    (ExtendedMantissa.ofMantissaAndAccuracy m a).accuracy = a := by
  rcases a with _ | o
  · rfl
  · cases o <;> rfl

/-! ## The exponent that rounding aims at -/

theorem targetExponent_eq (m : ℕ) (e : ℤ) :
    Format.binary64.targetExponent (totalExponent m e) = max (m.log2 + e - 52) (-1074) := by
  simp only [Format.targetExponent, totalExponent, Format.mantissaBits, Format.minExponent]
  omega

/-- A mantissa has the leading digit of the quotient it describes. -/
theorem Describes.log_eq {m : ℕ} {x : ℚ} {a : Accuracy} (h : Describes m x a) (hm : 0 < m)
    (e : ℤ) : Int.log 2 (x * 2 ^ e) = m.log2 + e := by
  have hlow : (2 : ℚ) ^ m.log2 ≤ x := by
    have : (2 : ℚ) ^ m.log2 ≤ m := by exact_mod_cast Nat.log2_self_le hm.ne'
    linarith [h.bounds.1]
  have hhigh : x < 2 ^ (m.log2 + 1) := by
    have : (m : ℚ) + 1 ≤ 2 ^ (m.log2 + 1) := by exact_mod_cast Nat.lt_log2_self
    linarith [h.bounds.2]
  apply Double.log_eq
  · rw [zpow_add₀ (by norm_num), zpow_natCast]
    exact mul_le_mul_of_nonneg_right hlow (two_zpow_pos e).le
  · have hexp : (m.log2 : ℤ) + e + 1 = ((m.log2 + 1 : ℕ) : ℤ) + e := by
      push_cast
      ring
    rw [hexp, zpow_add₀ (by norm_num), zpow_natCast]
    exact mul_lt_mul_of_pos_right hhigh (two_zpow_pos e)

/-- Enough digits are at hand when the mantissa has fifty-three, or the exponent is least. -/
def Enough (m : ℕ) (e : ℤ) : Prop :=
  52 ≤ m.log2 ∨ e ≤ -1074

/-- Rounding aims at the spacing of the exact number, and never has to add digits. -/
theorem Describes.target {m : ℕ} {x : ℚ} {a : Accuracy} {e : ℤ} (h : Describes m x a)
    (hx : 0 < x) (he : Enough m e) :
    Format.binary64.targetExponent (totalExponent m e) = spacing (x * 2 ^ e) ∧
      e ≤ spacing (x * 2 ^ e) := by
  rw [targetExponent_eq]
  rcases Nat.eq_zero_or_pos m with rfl | hm
  · have hlow : e ≤ -1074 := by
      rcases he with he | he
      · simp at he
      · exact he
    have hlt : x * 2 ^ e < 2 ^ (-1022 : ℤ) := by
      calc x * 2 ^ e < 1 * 2 ^ e :=
            mul_lt_mul_of_pos_right (by simpa using h.bounds.2) (two_zpow_pos e)
        _ = 2 ^ e := one_mul _
        _ < 2 ^ (-1022 : ℤ) := zpow_lt_zpow_right₀ (by norm_num) (by omega)
    have hlog : Int.log 2 (x * 2 ^ e) < -1022 :=
      (Int.lt_zpow_iff_log_lt (b := 2) (by norm_num)
        (mul_pos hx (two_zpow_pos e))).mp (by exact_mod_cast hlt)
    unfold spacing
    simp only [Nat.log2_zero]
    omega
  · rw [spacing, h.log_eq hm]
    rcases he with he | he <;> omega

/-! ## Rounding -/

theorem shiftToTargetExponent_eq (m : ℕ) (e : ℤ) (a : Accuracy) :
    shiftToTargetExponent Format.binary64 m e a =
      (ExtendedMantissa.ofMantissaAndAccuracy m a >>>
          (Format.binary64.targetExponent (totalExponent m e) - e).toNat,
        e + (Format.binary64.targetExponent (totalExponent m e) - e).toNat) :=
  rfl

/-- A mantissa of at most fifty-three digits, or the next power of two, loses nothing when it is
put in canonical form. -/
theorem normalized_rounded {r : ℕ} {e : ℤ} (hr : r ≤ 2 ^ 53) (he : -1074 ≤ e) :
    ∃ r' : ℕ, ∃ e' : ℤ, (shiftToTargetExponent Format.binary64 r e .exact).1.mantissa = r' ∧
      (shiftToTargetExponent Format.binary64 r e .exact).2 = e' ∧
      (r' : ℚ) * 2 ^ e' = r * 2 ^ e ∧ r' < 2 ^ 53 ∧ -1074 ≤ e' ∧
      (2 ^ 52 ≤ r → 2 ^ 52 ≤ r') ∧ (r < 2 ^ 52 → e' = e) := by
  rcases hr.lt_or_eq with hlt | rfl
  · have hlog : r.log2 ≤ 52 := by
      rcases Nat.eq_zero_or_pos r with rfl | hpos
      · simp
      · have := (Nat.log2_lt hpos.ne').mpr hlt
        omega
    have hshift : (Format.binary64.targetExponent (totalExponent r e) - e).toNat = 0 := by
      rw [targetExponent_eq]
      omega
    refine ⟨r, e, ?_, ?_, rfl, hlt, he, id, fun _ => rfl⟩
    · rw [shiftToTargetExponent_eq, hshift]
      rfl
    · rw [shiftToTargetExponent_eq, hshift]
      simp
  · have hshift : (Format.binary64.targetExponent (totalExponent (2 ^ 53) e) - e).toNat = 1 := by
      rw [targetExponent_eq, Nat.log2_two_pow]
      omega
    refine ⟨2 ^ 52, e + 1, ?_, ?_, ?_, by norm_num, by omega, fun _ => le_refl _, by omega⟩
    · rw [shiftToTargetExponent_eq, hshift]
      rfl
    · rw [shiftToTargetExponent_eq, hshift]
      rfl
    · rw [zpow_add_one₀ (by norm_num)]
      push_cast
      ring

/-- The sign of an unpacked double, positive for NaN. -/
def signOf : UnpackedFloat → Sign
  | .infinity s => s
  | .notANumber => .positive
  | .zero s => s
  | .finite s _ _ _ => s

/-- An unpacked double stands for the number that rounding an exact one yields. -/
structure Rounds (u : UnpackedFloat) (s : Sign) (q : ℚ) : Prop where
  canonical : Canonical u
  finite : u.isFinite = true
  sign : signOf u = s
  value : magnitude u = (s.apply 1 : ℤ) * nearestMagnitude q

/-- The mantissa that the first shift and rounding yield. -/
theorem first_rounded {m : ℕ} {x : ℚ} {a : Accuracy} {e : ℤ} (h : Describes m x a)
    (hx : 0 < x) (he : Enough m e) :
    ((shiftToTargetExponent Format.binary64 m e a).1.roundedMantissa : ℤ) =
        halfEven (x * 2 ^ e / 2 ^ spacing (x * 2 ^ e)) ∧
      (shiftToTargetExponent Format.binary64 m e a).2 = spacing (x * 2 ^ e) := by
  obtain ⟨htarget, hle⟩ := h.target hx he
  rw [shiftToTargetExponent_eq, htarget]
  obtain ⟨k, hk⟩ := Int.eq_ofNat_of_zero_le (sub_nonneg.mpr hle)
  have hsum : spacing (x * 2 ^ e) = k + e := by omega
  have hquot : x * 2 ^ e / 2 ^ spacing (x * 2 ^ e) = x / 2 ^ k := by
    rw [hsum, zpow_add₀ (by norm_num), zpow_natCast]
    exact mul_div_mul_right _ _ (two_zpow_pos e).ne'
  rw [hquot, hk, Int.toNat_natCast]
  refine ⟨?_, by simp only []; omega⟩
  have hem : Describes (ExtendedMantissa.ofMantissaAndAccuracy m a).mantissa x
      (ExtendedMantissa.ofMantissaAndAccuracy m a).accuracy := by
    rwa [ofMantissaAndAccuracy_mantissa, ofMantissaAndAccuracy_accuracy]
  exact (hem.shiftRight k).rounded

/-- The nearest multiple of the spacing has at most fifty-three digits or is the next power of two,
and it has fifty-three above the least exponent. -/
theorem halfEven_quotient_bounds {q : ℚ} (hq : 0 < q) :
    halfEven (q / 2 ^ spacing q) ≤ 2 ^ 53 ∧
      (-1074 < spacing q → 2 ^ 52 ≤ halfEven (q / 2 ^ spacing q)) := by
  have hlog : Int.log 2 q + 1 ≤ 53 + spacing q := by
    unfold spacing
    omega
  constructor
  · have hle : q / 2 ^ spacing q ≤ ((2 ^ 53 : ℤ) : ℚ) := by
      rw [div_le_iff₀ (two_zpow_pos _)]
      calc q ≤ 2 ^ (Int.log 2 q + 1) := (log_bounds hq).2.le
        _ ≤ 2 ^ (53 + spacing q) := zpow_le_zpow_right₀ (by norm_num) hlog
        _ = ((2 ^ 53 : ℤ) : ℚ) * 2 ^ spacing q := by
          rw [zpow_add₀ (by norm_num)]
          norm_num
    rw [← halfEven_intCast (2 ^ 53)]
    exact halfEven_mono hle
  · intro hlow
    have hexp : Int.log 2 q = 52 + spacing q := by
      unfold spacing at hlow ⊢
      omega
    have hge : ((2 ^ 52 : ℤ) : ℚ) ≤ q / 2 ^ spacing q := by
      rw [le_div_iff₀ (two_zpow_pos _)]
      calc ((2 ^ 52 : ℤ) : ℚ) * 2 ^ spacing q = 2 ^ (52 + spacing q) := by
            rw [zpow_add₀ (by norm_num)]
            norm_num
        _ = 2 ^ Int.log 2 q := by rw [hexp]
        _ ≤ q := (log_bounds hq).1
    rw [← halfEven_intCast (2 ^ 52)]
    exact halfEven_mono hge

theorem sign_apply_cast (s : Sign) (n : ℤ) : ((s.apply n : ℤ) : ℚ) = (s.apply 1 : ℤ) * n := by
  cases s <;> simp [Sign.apply]

/-- Rounding yields the grid point nearest the exact number. -/
theorem roundWithAccuracy_spec (s : Sign) {m : ℕ} {x : ℚ} {a : Accuracy} {e : ℤ}
    (h : Describes m x a) (hx : 0 < x) (he : Enough m e) :
    Rounds (roundWithAccuracy Format.binary64 s m e a) s (x * 2 ^ e) := by
  have hq : 0 < x * 2 ^ e := mul_pos hx (two_zpow_pos e)
  obtain ⟨hround, hexp⟩ := first_rounded h hx he
  obtain ⟨hmax, hmin⟩ := halfEven_quotient_bounds hq
  have hlow : -1074 ≤ spacing (x * 2 ^ e) := le_max_right _ _
  obtain ⟨r', e', hr', he', hval, hlt, hge, hlead, hkeep⟩ :=
    normalized_rounded (r := (shiftToTargetExponent Format.binary64 m e a).1.roundedMantissa)
      (e := spacing (x * 2 ^ e)) (by omega) hlow
  have hnear : (r' : ℚ) * 2 ^ e' = nearestMagnitude (x * 2 ^ e) := by
    rw [hval, nearestMagnitude, ← hround]
    push_cast
    rfl
  have hcanon : 2 ^ 52 ≤ r' ∨ e' = -1074 := by
    rcases hlow.lt_or_eq with hspace | hspace
    · exact .inl (hlead (by have := hmin hspace; omega))
    · by_cases hbig : 2 ^ 52 ≤ (shiftToTargetExponent Format.binary64 m e a).1.roundedMantissa
      · exact .inl (hlead hbig)
      · exact .inr (by rw [hkeep (by omega), ← hspace])
  have hresult : roundWithAccuracy Format.binary64 s m e a =
      if hz : r' = 0 then .zero s else .finite s r' e' (Nat.pos_of_ne_zero hz) := by
    subst hr' he'
    unfold roundWithAccuracy
    simp only [hexp]
  rw [hresult]
  split_ifs with hz
  · refine ⟨trivial, rfl, rfl, ?_⟩
    rw [← hnear, hz]
    simp [magnitude]
  · refine ⟨⟨hlt, hge, hcanon⟩, rfl, rfl, ?_⟩
    rw [← hnear, magnitude, sign_apply_cast]
    push_cast
    ring

end Double

end TradeRules
