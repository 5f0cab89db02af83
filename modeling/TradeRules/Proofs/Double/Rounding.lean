import Mathlib

/-!
# Rounding to the grid of doubles

The finite doubles lie on a grid.  Near a rational `q` its points are the multiples of
`2 ^ spacing q`: fifty-three binary digits from the leading one, and never finer than `2 ^ -1074`.
`nearest q` is the grid point nearest `q`, and at equal distance the even multiple.  The grid goes on
beyond the greatest double.  A result whose nearest point is not `InRange` overflows.

Rounding is monotone (`nearest_mono`), odd (`nearest_neg`), and leaves every point of the grid where
it is (`nearest_of_grid`).  Nothing here speaks of bits.
-/

namespace TradeRules

namespace Double

/-! ## Integers nearest a rational -/

/-- The integer nearest a rational; a half goes to the even neighbour. -/
def halfEven (q : ℚ) : ℤ :=
  if 2 * (q - ⌊q⌋) < 1 then ⌊q⌋
  else if 1 < 2 * (q - ⌊q⌋) then ⌊q⌋ + 1
  else if ⌊q⌋ % 2 = 0 then ⌊q⌋ else ⌊q⌋ + 1

/-- The nearest integer is one of the two neighbours. -/
theorem halfEven_eq_or (q : ℚ) : halfEven q = ⌊q⌋ ∨ halfEven q = ⌊q⌋ + 1 := by
  unfold halfEven
  split_ifs <;> simp

@[simp] theorem halfEven_intCast (n : ℤ) : halfEven n = n := by
  simp [halfEven]

/-- Rounding to an integer is monotone. -/
theorem halfEven_mono {p q : ℚ} (h : p ≤ q) : halfEven p ≤ halfEven q := by
  rcases lt_or_eq_of_le (Int.floor_mono h) with hlt | heq
  · have hp : halfEven p ≤ ⌊p⌋ + 1 := by
      rcases halfEven_eq_or p with hp | hp <;> omega
    have hq : ⌊q⌋ ≤ halfEven q := by
      rcases halfEven_eq_or q with hq | hq <;> omega
    omega
  · unfold halfEven
    rw [heq]
    split_ifs <;> first | omega | linarith

/-! ## The grid -/

/-- The exponent of the distance of neighbouring doubles near a positive rational. -/
def spacing (q : ℚ) : ℤ :=
  max (Int.log 2 q - 52) (-1074)

/-- The grid point nearest a rational that is not negative. -/
def nearestMagnitude (q : ℚ) : ℚ :=
  halfEven (q / 2 ^ spacing q) * 2 ^ spacing q

/-- The grid point nearest a rational; at equal distance the even one. -/
def nearest (q : ℚ) : ℚ :=
  if 0 ≤ q then nearestMagnitude q else -nearestMagnitude (-q)

/-- Whether a grid point is a double. -/
def InRange (q : ℚ) : Prop :=
  |q| < 2 ^ 1024

@[simp] theorem nearestMagnitude_zero : nearestMagnitude 0 = 0 := by
  have h : halfEven 0 = 0 := by exact_mod_cast halfEven_intCast 0
  simp [nearestMagnitude, h]

theorem nearest_of_nonneg {q : ℚ} (h : 0 ≤ q) : nearest q = nearestMagnitude q := by
  simp [nearest, h]

theorem nearest_of_neg {q : ℚ} (h : q < 0) : nearest q = -nearestMagnitude (-q) := by
  simp [nearest, not_le.mpr h]

@[simp] theorem nearest_zero : nearest 0 = 0 := by
  simp [nearest]

/-- Rounding is odd. -/
@[simp] theorem nearest_neg (q : ℚ) : nearest (-q) = -nearest q := by
  rcases lt_trichotomy q 0 with h | h | h
  · simp [nearest, not_le.mpr h, h.le]
  · simp [h]
  · simp [nearest, h.le, not_le.mpr h]

theorem two_zpow_pos (e : ℤ) : (0 : ℚ) < 2 ^ e :=
  zpow_pos (by norm_num) e

/-- A power of two is a multiple of each smaller one. -/
theorem zpow_eq_mul {d e : ℤ} (h : d ≤ e) : ∃ k : ℕ, (2 : ℚ) ^ e = ((2 ^ k : ℤ) : ℚ) * 2 ^ d := by
  obtain ⟨k, hk⟩ := Int.eq_ofNat_of_zero_le (sub_nonneg.mpr h)
  refine ⟨k, ?_⟩
  push_cast
  rw [← zpow_natCast, ← zpow_add₀ (by norm_num)]
  congr 1
  omega

/-- The spacing grows with the magnitude. -/
theorem spacing_mono {p q : ℚ} (hp : 0 < p) (h : p ≤ q) : spacing p ≤ spacing q := by
  have := Int.log_mono_right (b := 2) hp h
  unfold spacing
  omega

/-- A positive rational lies between two powers of two. -/
theorem log_bounds {q : ℚ} (hq : 0 < q) :
    (2 : ℚ) ^ Int.log 2 q ≤ q ∧ q < 2 ^ (Int.log 2 q + 1) := by
  have h1 := Int.zpow_log_le_self (b := 2) (r := q) (by norm_num) hq
  have h2 := Int.lt_zpow_succ_log_self (b := 2) (by norm_num) q
  exact ⟨by exact_mod_cast h1, by exact_mod_cast h2⟩

/-- The exponent of the leading binary digit is determined by the bounds. -/
theorem log_eq {q : ℚ} {e : ℤ} (h1 : (2 : ℚ) ^ e ≤ q) (h2 : q < 2 ^ (e + 1)) :
    Int.log 2 q = e := by
  have hq : 0 < q := lt_of_lt_of_le (two_zpow_pos e) h1
  have hle : e ≤ Int.log 2 q :=
    (Int.zpow_le_iff_le_log (b := 2) (by norm_num) hq).mp (by exact_mod_cast h1)
  have hlt : Int.log 2 q < e + 1 :=
    (Int.lt_zpow_iff_log_lt (b := 2) (by norm_num) hq).mp (by exact_mod_cast h2)
  omega

/-- A multiple of the spacing stays where it is. -/
theorem nearestMagnitude_of_multiple {q : ℚ} {n : ℤ} (h : q = n * 2 ^ spacing q) :
    nearestMagnitude q = q := by
  have hdiv : q / 2 ^ spacing q = n := by
    rw [div_eq_iff (two_zpow_pos _).ne']
    exact h
  rw [nearestMagnitude, hdiv, halfEven_intCast]
  exact h.symm

/-- A multiple of a power of two no smaller than the spacing stays where it is. -/
theorem nearestMagnitude_of_dvd {q : ℚ} {n : ℤ} {e : ℤ} (h : q = n * 2 ^ e)
    (he : spacing q ≤ e) : nearestMagnitude q = q := by
  obtain ⟨k, hsplit⟩ := zpow_eq_mul he
  apply nearestMagnitude_of_multiple (n := n * 2 ^ k)
  calc q = n * 2 ^ e := h
    _ = (n * 2 ^ k : ℤ) * 2 ^ spacing q := by
      rw [hsplit]
      push_cast
      ring

/-- The spacing at most `e` where at most fifty-three digits from `2 ^ e` on are needed. -/
theorem spacing_le {q : ℚ} {e : ℤ} (hq : 0 < q) (h : q < 2 ^ (e + 53)) (he : -1074 ≤ e) :
    spacing q ≤ e := by
  have hlog : Int.log 2 q < e + 53 :=
    (Int.lt_zpow_iff_log_lt (b := 2) (by norm_num) hq).mp (by exact_mod_cast h)
  unfold spacing
  omega

/-- Numbers of at most fifty-three binary digits are grid points. -/
theorem nearest_of_grid {n : ℤ} {e : ℤ} (hn : |n| ≤ 2 ^ 53) (he : -1074 ≤ e) :
    nearest (n * 2 ^ e) = n * 2 ^ e := by
  -- The sign is taken off first, and the one number with fifty-four digits is a power of two.
  have key : ∀ m : ℤ, 0 ≤ m → m ≤ 2 ^ 53 → nearestMagnitude (m * 2 ^ e) = m * 2 ^ e := by
    intro m hm0 hm
    rcases hm0.eq_or_lt with rfl | hpos
    · simp
    have hq : (0 : ℚ) < m * 2 ^ e := mul_pos (by exact_mod_cast hpos) (two_zpow_pos e)
    rcases hm.eq_or_lt with rfl | hlt
    · have hval : (((2 : ℤ) ^ 53 : ℤ) : ℚ) * 2 ^ e = ((1 : ℤ) : ℚ) * 2 ^ (e + 53) := by
        rw [zpow_add₀ (by norm_num)]
        push_cast
        ring
      refine nearestMagnitude_of_dvd hval ?_
      refine spacing_le hq ?_ (by omega)
      rw [hval, Int.cast_one, one_mul]
      exact zpow_lt_zpow_right₀ (by norm_num) (by omega)
    · refine nearestMagnitude_of_dvd rfl (spacing_le hq ?_ he)
      rw [zpow_add₀ (by norm_num), mul_comm]
      refine mul_lt_mul_of_pos_left ?_ (two_zpow_pos e)
      exact_mod_cast hlt
  rcases le_total 0 n with h0 | h0
  · have hq : (0 : ℚ) ≤ n * 2 ^ e := mul_nonneg (by exact_mod_cast h0) (two_zpow_pos e).le
    rw [nearest_of_nonneg hq]
    exact key n h0 (by rwa [abs_of_nonneg h0] at hn)
  · have hq : (0 : ℚ) ≤ ((-n : ℤ) : ℚ) * 2 ^ e :=
      mul_nonneg (by exact_mod_cast neg_nonneg.mpr h0) (two_zpow_pos e).le
    have hneg : (n : ℚ) * 2 ^ e = -(((-n : ℤ) : ℚ) * 2 ^ e) := by
      push_cast
      ring
    rw [hneg, nearest_neg, nearest_of_nonneg hq,
      key (-n) (by omega) (by rwa [abs_of_nonpos h0] at hn)]

/-- Integers are rounded to integers. -/
theorem nearest_intCast (n : ℤ) : ∃ k : ℤ, nearest n = k := by
  have key : ∀ m : ℤ, 0 ≤ m → ∃ k : ℤ, nearestMagnitude m = k := by
    intro m hm
    rcases le_or_gt (spacing (m : ℚ)) 0 with hs | hs
    · exact ⟨m, nearestMagnitude_of_dvd (n := m) (e := 0) (by rw [zpow_zero, mul_one]) hs⟩
    · obtain ⟨k, hk⟩ := Int.eq_ofNat_of_zero_le hs.le
      refine ⟨halfEven (m / 2 ^ spacing (m : ℚ)) * 2 ^ k, ?_⟩
      rw [nearestMagnitude, hk]
      push_cast
      rw [zpow_natCast]
  rcases le_total 0 n with h | h
  · rw [nearest_of_nonneg (by exact_mod_cast h)]
    exact key n h
  · obtain ⟨k, hk⟩ := key (-n) (by omega)
    refine ⟨-k, ?_⟩
    have hneg : (n : ℚ) = -((-n : ℤ) : ℚ) := by
      push_cast
      ring
    rw [hneg, nearest_neg, nearest_of_nonneg (by exact_mod_cast neg_nonneg.mpr h), hk]
    push_cast
    ring

/-! ## Monotonicity -/

theorem nearestMagnitude_nonneg {q : ℚ} (h : 0 ≤ q) : 0 ≤ nearestMagnitude q := by
  have hdiv : (0 : ℚ) ≤ q / 2 ^ spacing q := div_nonneg h (two_zpow_pos _).le
  have h0 : (0 : ℤ) ≤ halfEven (q / 2 ^ spacing q) := by
    rw [← halfEven_intCast 0]
    exact halfEven_mono (by simpa using hdiv)
  exact mul_nonneg (by exact_mod_cast h0) (two_zpow_pos _).le

/-- A power of two on the grid bounds from above what rounds below it. -/
theorem nearestMagnitude_le_zpow {q : ℚ} {e : ℤ} (h : q ≤ 2 ^ e)
    (he : spacing q ≤ e) : nearestMagnitude q ≤ 2 ^ e := by
  obtain ⟨k, hsplit⟩ := zpow_eq_mul he
  have hdiv : q / 2 ^ spacing q ≤ ((2 ^ k : ℤ) : ℚ) := by
    rw [div_le_iff₀ (two_zpow_pos _), ← hsplit]
    exact h
  rw [hsplit, nearestMagnitude]
  refine mul_le_mul_of_nonneg_right ?_ (two_zpow_pos _).le
  have := halfEven_mono hdiv
  rw [halfEven_intCast] at this
  exact_mod_cast this

/-- A power of two on the grid bounds from below what rounds above it. -/
theorem zpow_le_nearestMagnitude {q : ℚ} {e : ℤ} (h : 2 ^ e ≤ q)
    (he : spacing q ≤ e) : 2 ^ e ≤ nearestMagnitude q := by
  obtain ⟨k, hsplit⟩ := zpow_eq_mul he
  have hdiv : ((2 ^ k : ℤ) : ℚ) ≤ q / 2 ^ spacing q := by
    rw [le_div_iff₀ (two_zpow_pos _), ← hsplit]
    exact h
  rw [hsplit, nearestMagnitude]
  refine mul_le_mul_of_nonneg_right ?_ (two_zpow_pos _).le
  have := halfEven_mono hdiv
  rw [halfEven_intCast] at this
  exact_mod_cast this

theorem nearestMagnitude_mono {p q : ℚ} (hp : 0 ≤ p) (h : p ≤ q) :
    nearestMagnitude p ≤ nearestMagnitude q := by
  rcases hp.eq_or_lt with rfl | hp
  · rw [nearestMagnitude_zero]
    exact nearestMagnitude_nonneg h
  have hq : 0 < q := lt_of_lt_of_le hp h
  rcases (spacing_mono hp h).eq_or_lt with heq | hlt
  · -- On one grid the rounding of the quotients is monotone.
    unfold nearestMagnitude
    rw [heq]
    refine mul_le_mul_of_nonneg_right ?_ (two_zpow_pos _).le
    exact_mod_cast halfEven_mono (div_le_div_of_nonneg_right h (two_zpow_pos _).le)
  · -- The greater number has a coarser grid, so a power of two lies between the two.
    have hlog : Int.log 2 p + 1 ≤ Int.log 2 q ∧ spacing q = Int.log 2 q - 52 := by
      unfold spacing at hlt ⊢
      omega
    have hpow : p ≤ 2 ^ Int.log 2 q :=
      le_trans (log_bounds hp).2.le (zpow_le_zpow_right₀ (by norm_num) hlog.1)
    calc nearestMagnitude p ≤ 2 ^ Int.log 2 q := nearestMagnitude_le_zpow hpow (by omega)
      _ ≤ nearestMagnitude q := zpow_le_nearestMagnitude (log_bounds hq).1 (by omega)

/-- Rounding is monotone. -/
theorem nearest_mono {p q : ℚ} (h : p ≤ q) : nearest p ≤ nearest q := by
  rcases le_or_gt 0 p with hp | hp
  · rw [nearest_of_nonneg hp, nearest_of_nonneg (hp.trans h)]
    exact nearestMagnitude_mono hp h
  rcases le_or_gt 0 q with hq | hq
  · have hn : nearest p ≤ 0 := by
      rw [nearest_of_neg hp]
      exact neg_nonpos.mpr (nearestMagnitude_nonneg (neg_nonneg.mpr hp.le))
    rw [nearest_of_nonneg hq]
    exact hn.trans (nearestMagnitude_nonneg hq)
  · rw [nearest_of_neg hp, nearest_of_neg hq]
    exact neg_le_neg (nearestMagnitude_mono (neg_nonneg.mpr hq.le) (neg_le_neg h))

theorem nearest_nonneg {q : ℚ} (h : 0 ≤ q) : 0 ≤ nearest q := by
  rw [nearest_of_nonneg h]
  exact nearestMagnitude_nonneg h

end Double

end TradeRules
