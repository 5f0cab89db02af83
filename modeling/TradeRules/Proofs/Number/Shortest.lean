import TradeRules.Number.Form
import TradeRules.Proofs.Double.Quotient

/-!
# Shortest decimals read back

The doubles split the rationals into intervals of numbers that round to them.  `Interval.Contains` is
membership in the interval of a double, and every member is rounded to the double (`nearest_of_contains`).
`Interval.search` finds a member: the seventeenth grid is finer than the interval, so one of the two
neighbours of the double on it is a member (`onGrid_isSome_of_fine`).

So the digits that are written for a finite double round to its magnitude (`nearest_literal`), and reading
them yields it (`toDouble_of_nearest`).
-/

namespace TradeRules

namespace Decimal

open Double

/-- The rational number of a decimal. -/
def exact (d : Decimal) : ℚ :=
  d.digits * 10 ^ d.exponent

theorem ten_zpow_pos (k : ℤ) : (0 : ℚ) < 10 ^ k :=
  zpow_pos (by norm_num) k

/-! ## Fractions -/

namespace Fraction

variable {q : Fraction} {n : ℕ} {k : ℤ}

/-- The rational number of a fraction. -/
def exact (q : Fraction) : ℚ :=
  q.upper / q.lower

theorem lower_pos_ofBinary (m : ℕ) (e : ℤ) : 0 < (ofBinary m e).lower := by
  unfold ofBinary
  split_ifs
  · exact Nat.one_pos
  · exact Nat.two_pow_pos _

@[simp] theorem ofBinary_exact (m : ℕ) (e : ℤ) : (ofBinary m e).exact = m * 2 ^ e := by
  unfold ofBinary exact
  split_ifs with he
  · obtain ⟨n, rfl⟩ := Int.eq_ofNat_of_zero_le he
    simp
  · obtain ⟨n, hn⟩ := Int.eq_ofNat_of_zero_le (show 0 ≤ -e by omega)
    obtain rfl : e = -n := by omega
    simp [zpow_neg, div_eq_mul_inv]

theorem lower_pos_scale (hq : 0 < q.lower) (k : ℤ) : 0 < (q.scale k).lower := by
  unfold scale
  split_ifs
  · exact Nat.mul_pos hq (Nat.pow_pos (by norm_num))
  · exact hq

@[simp] theorem scale_exact (q : Fraction) (k : ℤ) : (q.scale k).exact = q.exact / 10 ^ k := by
  unfold scale exact
  split_ifs with hk
  · obtain ⟨n, rfl⟩ := Int.eq_ofNat_of_zero_le hk
    simp [div_div]
  · obtain ⟨n, hn⟩ := Int.eq_ofNat_of_zero_le (show 0 ≤ -k by omega)
    obtain rfl : k = -n := by omega
    simp [zpow_neg, div_inv_eq_mul, mul_div_right_comm]

theorem exact_le_iff (hq : 0 < q.lower) : q.exact ≤ n ↔ q.upper ≤ n * q.lower := by
  rw [exact, div_le_iff₀ (by exact_mod_cast hq)]
  exact_mod_cast Iff.rfl

theorem le_exact_iff (hq : 0 < q.lower) : (n : ℚ) ≤ q.exact ↔ n * q.lower ≤ q.upper := by
  rw [exact, le_div_iff₀ (by exact_mod_cast hq)]
  exact_mod_cast Iff.rfl

/-- The quotient of the two numbers is the integer part. -/
theorem floor_bounds (hq : 0 < q.lower) :
    ((q.upper / q.lower : ℕ) : ℚ) ≤ q.exact ∧ q.exact < ((q.upper / q.lower : ℕ) : ℚ) + 1 := by
  refine ⟨(le_exact_iff hq).mpr (Nat.div_mul_le_self _ _), ?_⟩
  rw [← Nat.cast_succ, ← not_le, le_exact_iff hq, not_le, Nat.succ_eq_add_one, mul_comm]
  exact Nat.lt_mul_div_succ _ hq

/-! ## The first digit -/

/-- Five binary digits are a little less than a decimal digit and a half. -/
theorem ten_pow_le_two_pow : 10 ^ 30102 ≤ 2 ^ 100000 ∧ 2 ^ 100000 ≤ 10 ^ 30103 := by
  decide +kernel

/-- A power of ten is below a power of two when the exponents say so. -/
theorem ten_zpow_le_two_zpow {g b : ℤ}
    (h : 100000 * g ≤ b * (if 0 ≤ b then 30102 else 30103)) : (10 : ℚ) ^ g ≤ 2 ^ b := by
  have hlow : (10 : ℚ) ^ 30102 ≤ 2 ^ 100000 := by exact_mod_cast ten_pow_le_two_pow.1
  have hhigh : (2 : ℚ) ^ 100000 ≤ 10 ^ 30103 := by exact_mod_cast ten_pow_le_two_pow.2
  have hbound : (10 : ℚ) ^ (b * (if 0 ≤ b then 30102 else 30103)) ≤ 2 ^ (100000 * b) := by
    split_ifs with hb
    · obtain ⟨n, rfl⟩ := Int.eq_ofNat_of_zero_le hb
      have := pow_le_pow_left₀ (by positivity) hlow n
      rw [← pow_mul, ← pow_mul] at this
      exact_mod_cast (mul_comm n 30102 ▸ this)
    · obtain ⟨n, hn⟩ := Int.eq_ofNat_of_zero_le (show 0 ≤ -b by omega)
      obtain rfl : b = -n := by omega
      have := pow_le_pow_left₀ (by positivity) hhigh n
      rw [← pow_mul, ← pow_mul] at this
      rw [neg_mul, mul_neg, zpow_neg, zpow_neg, inv_le_inv₀ (ten_zpow_pos _) (two_zpow_pos _)]
      exact_mod_cast (mul_comm n 30103 ▸ this)
  have hpow : ((10 : ℚ) ^ g) ^ 100000 ≤ (2 ^ b) ^ 100000 := by
    rw [← zpow_natCast, ← zpow_natCast, ← zpow_mul, ← zpow_mul]
    calc (10 : ℚ) ^ (g * (100000 : ℕ))
        ≤ 10 ^ (b * (if 0 ≤ b then 30102 else 30103)) :=
          zpow_le_zpow_right₀ (by norm_num) (by push_cast; omega)
      _ ≤ 2 ^ (100000 * b) := hbound
      _ = 2 ^ (b * (100000 : ℕ)) := by rw [mul_comm]; rfl
  exact le_of_pow_le_pow_left₀ (by norm_num) (two_zpow_pos b).le hpow

/-- A positive fraction is at least the power of two of its numbers. -/
theorem two_zpow_le_exact (hu : 0 < q.upper) (hq : 0 < q.lower) :
    (2 : ℚ) ^ ((q.upper.log2 : ℤ) - q.lower.log2 - 1) ≤ q.exact := by
  have hup : (2 : ℚ) ^ q.upper.log2 ≤ q.upper := by
    exact_mod_cast Nat.log2_self_le hu.ne'
  have hlow : (q.lower : ℚ) < 2 ^ (q.lower.log2 + 1) := by
    exact_mod_cast Nat.lt_log2_self
  have hpos : (0 : ℚ) < q.lower := by exact_mod_cast hq
  rw [exact, le_div_iff₀ hpos, sub_sub, zpow_sub₀ (by norm_num), zpow_natCast]
  calc (2 : ℚ) ^ q.upper.log2 / 2 ^ ((q.lower.log2 : ℤ) + 1) * q.lower
      ≤ 2 ^ q.upper.log2 / 2 ^ ((q.lower.log2 : ℤ) + 1) * 2 ^ ((q.lower.log2 : ℤ) + 1) := by
        refine mul_le_mul_of_nonneg_left ?_ (div_nonneg (by positivity) (two_zpow_pos _).le)
        exact_mod_cast hlow.le
    _ = 2 ^ q.upper.log2 := div_mul_cancel₀ _ (two_zpow_pos _).ne'
    _ ≤ q.upper := hup

/-- The power of ten of the first digit is not above the fraction. -/
theorem ten_zpow_decade_le (hu : 0 < q.upper) (hq : 0 < q.lower) :
    (10 : ℚ) ^ q.decade ≤ q.exact := by
  obtain ⟨binary, hbinary⟩ : ∃ b : ℤ, b = (q.upper.log2 : ℤ) - q.lower.log2 - 1 := ⟨_, rfl⟩
  obtain ⟨guess, hguess⟩ : ∃ g : ℤ, g = binary * (if 0 ≤ binary then 30102 else 30103) / 100000 :=
    ⟨_, rfl⟩
  have hlow : (10 : ℚ) ^ guess ≤ q.exact := by
    refine le_trans (ten_zpow_le_two_zpow ?_) (hbinary ▸ two_zpow_le_exact hu hq)
    rw [hguess]
    exact Int.mul_ediv_self_le (by norm_num)
  unfold decade
  dsimp only
  rw [← hbinary, ← hguess]
  split_ifs with hreached
  · have hle := (le_exact_iff (n := 1) (lower_pos_scale hq _)).mpr
      (by rw [one_mul]; exact of_decide_eq_true hreached)
    rw [scale_exact, Nat.cast_one, one_le_div (ten_zpow_pos _)] at hle
    exact hle
  · exact hlow

end Fraction

/-! ## Intervals -/

namespace Interval

variable {i : Interval} {k : ℤ} {n : ℕ} {q : ℚ}

/-- Whether a rational lies in an interval. -/
def Contains (i : Interval) (q : ℚ) : Prop :=
  if i.closed then i.low.exact ≤ q ∧ q ≤ i.high.exact else i.low.exact < q ∧ q < i.high.exact

/-- Whether the fractions of an interval are ones. -/
structure Proper (i : Interval) : Prop where
  value : 0 < i.value.lower
  low : 0 < i.low.lower
  high : 0 < i.high.lower

theorem Contains.bounds (h : i.Contains q) : i.low.exact ≤ q ∧ q ≤ i.high.exact := by
  unfold Contains at h
  split_ifs at h
  · exact h
  · exact ⟨h.1.le, h.2.le⟩

/-- The ends belong to a closed interval only. -/
theorem Contains.closed_of_end (h : i.Contains q) (hend : q = i.low.exact ∨ q = i.high.exact) :
    i.closed = true := by
  by_contra hopen
  rw [Contains, if_neg hopen] at h
  rcases hend with rfl | rfl
  · exact lt_irrefl _ h.1
  · exact lt_irrefl _ h.2

theorem contains_of_lt (hl : i.low.exact < q) (hh : q < i.high.exact) : i.Contains q := by
  unfold Contains
  split_ifs
  · exact ⟨hl.le, hh.le⟩
  · exact ⟨hl, hh⟩

theorem holds_iff (hi : i.Proper) : i.holds k n = true ↔ i.Contains (n * 10 ^ k) := by
  have hl := Fraction.lower_pos_scale hi.low k
  have hh := Fraction.lower_pos_scale hi.high k
  have hlow : i.low.exact ≤ n * 10 ^ k ↔
      (i.low.scale k).upper ≤ n * (i.low.scale k).lower := by
    rw [← Fraction.exact_le_iff hl, Fraction.scale_exact, div_le_iff₀ (ten_zpow_pos k)]
  have hhigh : n * 10 ^ k ≤ i.high.exact ↔
      n * (i.high.scale k).lower ≤ (i.high.scale k).upper := by
    rw [← Fraction.le_exact_iff hh, Fraction.scale_exact, le_div_iff₀ (ten_zpow_pos k)]
  have hlow' : i.low.exact < n * 10 ^ k ↔
      (i.low.scale k).upper < n * (i.low.scale k).lower := by
    rw [← not_le, ← not_le, ← Fraction.le_exact_iff hl, Fraction.scale_exact,
      le_div_iff₀ (ten_zpow_pos k)]
  have hhigh' : n * 10 ^ k < i.high.exact ↔
      n * (i.high.scale k).lower < (i.high.scale k).upper := by
    rw [← not_le, ← not_le, ← Fraction.exact_le_iff hh, Fraction.scale_exact,
      div_le_iff₀ (ten_zpow_pos k)]
  unfold holds Contains
  dsimp only
  split_ifs
  · rw [hlow, hhigh, Bool.and_eq_true, decide_eq_true_iff, decide_eq_true_iff]
  · rw [hlow', hhigh', Bool.and_eq_true, decide_eq_true_iff, decide_eq_true_iff]

theorem roundHalfEven_eq_or (v : Fraction) :
    v.roundHalfEven = v.upper / v.lower ∨ v.roundHalfEven = v.upper / v.lower + 1 := by
  unfold Fraction.roundHalfEven
  dsimp only
  split_ifs <;> simp

/-- The point chosen from a grid lies in the interval. -/
theorem contains_of_onGrid (hi : i.Proper) {d : Decimal} (h : i.onGrid k = some d) :
    i.Contains d.exact := by
  unfold onGrid at h
  dsimp only at h
  split at h
  · next hunder hover =>
    cases h
    rcases roundHalfEven_eq_or (i.value.scale k) with h | h
    · rw [exact, h]
      exact (holds_iff hi).mp hunder
    · rw [exact, h]
      exact (holds_iff hi).mp hover
  · next hunder _ =>
    cases h
    exact (holds_iff hi).mp hunder
  · next _ hover =>
    cases h
    exact (holds_iff hi).mp hover
  · cases h

/-- A grid with a neighbour of the double in the interval has a point to choose. -/
theorem onGrid_isSome (hi : i.Proper)
    (h : i.Contains (((i.value.scale k).upper / (i.value.scale k).lower : ℕ) * 10 ^ k) ∨
      i.Contains (((i.value.scale k).upper / (i.value.scale k).lower + 1 : ℕ) * 10 ^ k)) :
    (i.onGrid k).isSome = true := by
  rw [← holds_iff hi, ← holds_iff hi] at h
  unfold onGrid
  dsimp only
  split
  · rfl
  · rfl
  · rfl
  · next hunder hover =>
    rw [hunder, hover] at h
    simp at h

/-- A grid finer than half of the interval on the upper side, or than all of it when the double is in
the middle, has a point to choose. -/
theorem onGrid_isSome_of_fine (hi : i.Proper) {r : ℚ} (hhigh : i.high.exact = i.value.exact + r)
    (hfine : i.low.exact < i.value.exact ∧ 10 ^ k < r ∨
      i.low.exact = i.value.exact - r ∧ 10 ^ k < 2 * r) :
    (i.onGrid k).isSome = true := by
  obtain ⟨hunder, hover⟩ := Fraction.floor_bounds (Fraction.lower_pos_scale hi.value k)
  rw [Fraction.scale_exact, le_div_iff₀ (ten_zpow_pos k)] at hunder
  rw [Fraction.scale_exact, div_lt_iff₀ (ten_zpow_pos k), add_mul, one_mul] at hover
  have hpos := ten_zpow_pos k
  refine onGrid_isSome hi ?_
  rw [Nat.cast_succ, add_mul, one_mul]
  generalize (((i.value.scale k).upper / (i.value.scale k).lower : ℕ) : ℚ) * 10 ^ k = under at *
  rcases hfine with ⟨hlow, hfine⟩ | ⟨hlow, hfine⟩
  · exact .inr (contains_of_lt (hlow.trans hover) (by linarith))
  · -- The two neighbours are less than the interval apart, so the nearer one is inside.
    rcases lt_or_ge (i.value.exact - under) r with hnear | hfar
    · exact .inl (contains_of_lt (by linarith) (by linarith))
    · exact .inr (contains_of_lt (by linarith) (by linarith))

theorem contains_of_search (hi : i.Proper) {d : Decimal} :
    ∀ {count : ℕ} {k : ℤ}, i.search count k = some d → i.Contains d.exact
  | 0, _, h => by cases h
  | count + 1, k, h => by
    rw [search] at h
    split at h
    · next found hfound =>
      cases h
      exact contains_of_onGrid hi hfound
    · exact contains_of_search hi h

/-- The search finds a point if one of its grids has one. -/
theorem search_isSome :
    ∀ {count j : ℕ} {k : ℤ}, j < count → (i.onGrid (k - j)).isSome = true →
      (i.search count k).isSome = true
  | 0, _, _, hj, _ => absurd hj (Nat.not_lt_zero _)
  | count + 1, j, k, hj, h => by
    rw [search]
    split
    · rfl
    · next hnone =>
      cases j with
      | zero =>
        rw [Nat.cast_zero, sub_zero, hnone] at h
        cases h
      | succ j =>
        refine search_isSome (Nat.lt_of_succ_lt_succ hj) ?_
        rwa [sub_sub, add_comm (1 : ℤ), ← Nat.cast_succ]

end Interval

/-! ## Rounding -/

/-- A rational within half a unit of an integer is rounded to it, at half a unit when it is even. -/
theorem halfEven_eq_of_near {x : ℚ} {n : ℤ} (h : |x - n| ≤ 1 / 2)
    (heven : |x - n| = 1 / 2 → n % 2 = 0) : halfEven x = n := by
  obtain ⟨hlow, hhigh⟩ := abs_le.mp h
  unfold halfEven
  rcases le_or_gt (n : ℚ) x with hx | hx
  · have hfloor : ⌊x⌋ = n := Int.floor_eq_iff.mpr ⟨hx, by linarith⟩
    rw [abs_of_nonneg (sub_nonneg.mpr hx)] at heven
    rw [hfloor]
    split_ifs with hless hmore hparity
    · rfl
    · linarith
    · rfl
    · exact absurd (heven (by linarith)) hparity
  · have hfloor : ⌊x⌋ = n - 1 :=
      Int.floor_eq_iff.mpr ⟨by push_cast; linarith, by push_cast; linarith⟩
    rw [abs_of_neg (sub_neg.mpr hx)] at heven
    rw [hfloor]
    push_cast
    split_ifs with hless hmore hparity
    · linarith
    · omega
    · have := heven (by linarith)
      omega
    · omega

/-- The spacing where the leading digit is known. -/
theorem spacing_eq {q : ℚ} {e : ℤ} (he : -1074 ≤ e) (hq : 0 < q) (hlt : q < 2 ^ (e + 53))
    (hge : e = -1074 ∨ 2 ^ (e + 52) ≤ q) : spacing q = e := by
  refine le_antisymm (spacing_le hq hlt he) ?_
  unfold spacing
  rcases hge with rfl | hge
  · exact le_max_right _ _
  · have hlog : e + 52 ≤ Int.log 2 q :=
      (Int.zpow_le_iff_le_log (b := 2) (by norm_num) hq).mp (by exact_mod_cast hge)
    exact le_max_of_le_left (by omega)

/-- A rational within half a spacing of a grid point is rounded to it, at half a spacing when the
point is even. -/
theorem nearest_eq_of_near {q : ℚ} {n e : ℤ} (hq : 0 ≤ q) (hs : spacing q = e)
    (h : |q - n * 2 ^ e| ≤ 2 ^ e / 2) (heven : |q - n * 2 ^ e| = 2 ^ e / 2 → n % 2 = 0) :
    nearest q = n * 2 ^ e := by
  have hpos := two_zpow_pos e
  have hscale : |q / 2 ^ e - n| = |q - n * 2 ^ e| / 2 ^ e := by
    rw [← abs_of_pos hpos, ← abs_div, abs_of_pos hpos, sub_div, mul_div_cancel_right₀ _ hpos.ne']
  rw [nearest_of_nonneg hq, nearestMagnitude, hs, halfEven_eq_of_near]
  · rw [hscale, div_le_iff₀ hpos]
    linarith
  · rw [hscale, div_eq_iff hpos.ne']
    exact fun htie => heven (by linarith)

/-- What the parts of a finite positive double satisfy. -/
structure Normal (p : Parts) : Prop where
  pos : 0 < p.mantissa
  lt : p.mantissa < 2 ^ 53
  low : -1074 ≤ p.exponent
  full : 2 ^ 52 ≤ p.mantissa ∨ p.exponent = -1074

theorem normal_parts {x : Float} (h : (parts x).mantissa ≠ 0) : Normal (parts x) := by
  refine ⟨Nat.pos_of_ne_zero h, parts_mantissa_lt x, parts_exponent_ge x, ?_⟩
  rw [parts_mantissa, parts_exponent]
  split_ifs <;> omega

variable {p : Parts} {q : ℚ}

/-- The magnitude of a double given by its parts. -/
def partsMagnitude (p : Parts) : ℚ :=
  p.mantissa * 2 ^ p.exponent

/-- Whether the doubles below lie twice as dense. -/
def IsEdge (p : Parts) : Prop :=
  p.mantissa = 2 ^ 52 ∧ -1074 < p.exponent

theorem two_zpow_quarter (e : ℤ) : (2 : ℚ) ^ (e - 2) = 2 ^ e / 4 := by
  rw [zpow_sub₀ (by norm_num)]
  norm_num

theorem interval_proper (p : Parts) : (interval p).Proper :=
  ⟨Fraction.lower_pos_ofBinary _ _, Fraction.lower_pos_ofBinary _ _,
    Fraction.lower_pos_ofBinary _ _⟩

theorem interval_value (p : Parts) : (interval p).value.exact = partsMagnitude p := by
  rw [interval, Fraction.ofBinary_exact, two_zpow_quarter, partsMagnitude]
  push_cast
  ring

theorem interval_high (p : Parts) :
    (interval p).high.exact = partsMagnitude p + 2 ^ p.exponent / 2 := by
  rw [interval, Fraction.ofBinary_exact, two_zpow_quarter, partsMagnitude]
  push_cast
  ring

theorem interval_low_of_edge (h : IsEdge p) :
    (interval p).low.exact = partsMagnitude p - 2 ^ p.exponent / 4 := by
  unfold IsEdge at h
  unfold interval
  rw [Fraction.ofBinary_exact, two_zpow_quarter, partsMagnitude, Nat.pow_eq, if_pos h, h.1]
  push_cast
  ring

theorem interval_low_of_not_edge (hp : 0 < p.mantissa) (h : ¬IsEdge p) :
    (interval p).low.exact = partsMagnitude p - 2 ^ p.exponent / 2 := by
  unfold IsEdge at h
  unfold interval
  rw [Fraction.ofBinary_exact, two_zpow_quarter, partsMagnitude, Nat.pow_eq, if_neg h,
    Nat.cast_sub (by omega)]
  push_cast
  ring

theorem interval_closed (h : (interval p).closed = true) : p.mantissa % 2 = 0 :=
  of_decide_eq_true h

theorem two_zpow_add (e : ℤ) (n : ℕ) : (2 : ℚ) ^ (e + n) = 2 ^ n * 2 ^ e := by
  rw [zpow_add₀ (by norm_num), zpow_natCast, mul_comm]

/-- Around a double its own spacing decides, except below an edge. -/
theorem nearest_of_near (hp : Normal p) (hnear : |q - partsMagnitude p| ≤ 2 ^ p.exponent / 2)
    (heven : |q - partsMagnitude p| = 2 ^ p.exponent / 2 → p.mantissa % 2 = 0)
    (hge : p.exponent = -1074 ∨ 2 ^ 52 * 2 ^ p.exponent ≤ q) : nearest q = partsMagnitude p := by
  have hpos := two_zpow_pos p.exponent
  have hone : (1 : ℚ) ≤ p.mantissa := by exact_mod_cast hp.pos
  have hlt : (p.mantissa : ℚ) + 1 ≤ 2 ^ 53 := by exact_mod_cast hp.lt
  obtain ⟨hlow, hhigh⟩ := abs_le.mp hnear
  have hle : 1 * (2 : ℚ) ^ p.exponent ≤ partsMagnitude p :=
    mul_le_mul_of_nonneg_right hone hpos.le
  have hmost : (p.mantissa + 1) * (2 : ℚ) ^ p.exponent ≤ 2 ^ 53 * 2 ^ p.exponent :=
    mul_le_mul_of_nonneg_right hlt hpos.le
  have hsum : (p.mantissa + 1) * (2 : ℚ) ^ p.exponent = partsMagnitude p + 2 ^ p.exponent := by
    rw [add_mul, one_mul, partsMagnitude]
  have hqpos : 0 < q := by linarith
  have hs : spacing q = p.exponent := by
    refine spacing_eq hp.low hqpos ?_ ?_
    · rw [show p.exponent + 53 = p.exponent + (53 : ℕ) from rfl, two_zpow_add]
      linarith
    · rwa [show p.exponent + 52 = p.exponent + (52 : ℕ) from rfl, two_zpow_add]
  have hresult := nearest_eq_of_near (n := p.mantissa) hqpos.le hs
    (by rwa [Int.cast_natCast]) (by rw [Int.cast_natCast]; exact fun h => by exact_mod_cast heven h)
  rwa [Int.cast_natCast] at hresult

/-- Below an edge the spacing is half as large, and the edge is its even multiple. -/
theorem nearest_below_edge (h : IsEdge p) (hlt : q < partsMagnitude p)
    (hle : partsMagnitude p - 2 ^ p.exponent / 4 ≤ q) : nearest q = partsMagnitude p := by
  have hpos := two_zpow_pos p.exponent
  have hvalue : partsMagnitude p = 2 ^ 52 * 2 ^ p.exponent := by
    rw [partsMagnitude, h.1]
    push_cast
    rfl
  have hhalf : (2 : ℚ) ^ p.exponent = 2 * 2 ^ (p.exponent - 1) := by
    have := two_zpow_add (p.exponent - 1) 1
    rwa [Nat.cast_one, sub_add_cancel, pow_one] at this
  rw [hvalue] at hlt hle ⊢
  rw [hhalf] at hlt hle hpos ⊢
  have hs : spacing q = p.exponent - 1 := by
    refine spacing_eq (by have := h.2; omega) (by linarith) ?_ (.inr ?_)
    · rw [show p.exponent - 1 + 53 = p.exponent - 1 + (53 : ℕ) from rfl, two_zpow_add]
      linarith
    · rw [show p.exponent - 1 + 52 = p.exponent - 1 + (52 : ℕ) from rfl, two_zpow_add]
      linarith
  have hresult := nearest_eq_of_near (n := 2 ^ 53) (by linarith) hs
    (abs_le.mpr ⟨by push_cast; linarith, by push_cast; linarith⟩) (fun _ => by norm_num)
  rw [hresult]
  push_cast
  ring

/-- The members of the interval of a double are rounded to it. -/
theorem nearest_of_contains (hp : Normal p) (h : (interval p).Contains q) :
    nearest q = partsMagnitude p := by
  have hpos := two_zpow_pos p.exponent
  obtain ⟨hlow, hhigh⟩ := h.bounds
  have hend := fun hq => interval_closed (h.closed_of_end hq)
  rw [interval_high] at hhigh hend
  rcases le_or_gt (partsMagnitude p) q with hq | hq
  · refine nearest_of_near hp ?_ ?_ ?_
    · rw [abs_of_nonneg (sub_nonneg.mpr hq)]
      linarith
    · rw [abs_of_nonneg (sub_nonneg.mpr hq)]
      exact fun htie => hend (.inr (by linarith))
    · refine hp.full.symm.imp_right fun hfull => le_trans ?_ hq
      exact mul_le_mul_of_nonneg_right (by exact_mod_cast hfull) hpos.le
  · by_cases hedge : IsEdge p
    · rw [interval_low_of_edge hedge] at hlow
      exact nearest_below_edge hedge hq hlow
    · rw [interval_low_of_not_edge hp.pos hedge] at hlow hend
      refine nearest_of_near hp ?_ ?_ ?_
      · rw [abs_of_neg (sub_neg.mpr hq)]
        linarith
      · rw [abs_of_neg (sub_neg.mpr hq)]
        exact fun htie => hend (.inl (by linarith))
      · refine or_iff_not_imp_left.mpr fun he => ?_
        -- The mantissa is above the least full one, so there is room for half a unit.
        have hfull : 2 ^ 52 + 1 ≤ p.mantissa := by
          have hlow := hp.low
          have hne : p.mantissa ≠ 2 ^ 52 := fun heq => hedge ⟨heq, by omega⟩
          have := hp.full
          omega
        have hroom : (2 ^ 52 + 1) * (2 : ℚ) ^ p.exponent ≤ partsMagnitude p :=
          mul_le_mul_of_nonneg_right (by exact_mod_cast hfull) hpos.le
        linarith

/-! ## The search succeeds -/

/-- Seventeen grids from the first digit on suffice. -/
theorem search_seventeen (hp : Normal p) :
    ((interval p).search 17 (interval p).value.decade).isSome = true := by
  have hpos := two_zpow_pos p.exponent
  have hi := interval_proper p
  have hupper : 0 < (interval p).value.upper := by
    by_contra hzero
    have hvalue := interval_value p
    rw [Fraction.exact, Nat.eq_zero_of_not_pos hzero, Nat.cast_zero, zero_div] at hvalue
    have hne : (0 : ℚ) < partsMagnitude p := mul_pos (by exact_mod_cast hp.pos) hpos
    exact hne.ne hvalue
  have hdecade := Fraction.ten_zpow_decade_le hupper hi.value
  rw [interval_value] at hdecade
  have hgrid : (10 : ℚ) ^ ((interval p).value.decade - (16 : ℕ)) * 10 ^ 16 ≤ partsMagnitude p := by
    rw [zpow_sub₀ (by norm_num), zpow_natCast, div_mul_cancel₀ _ (by norm_num)]
    exact hdecade
  refine Interval.search_isSome (j := 16) (by norm_num) ?_
  refine Interval.onGrid_isSome_of_fine (r := 2 ^ p.exponent / 2) hi
    (by rw [interval_high, interval_value]) ?_
  rw [interval_value]
  generalize (10 : ℚ) ^ ((interval p).value.decade - (16 : ℕ)) = grid at hgrid ⊢
  by_cases hedge : IsEdge p
  · refine .inl ⟨by rw [interval_low_of_edge hedge]; linarith, ?_⟩
    rw [partsMagnitude, hedge.1] at hgrid
    push_cast at hgrid
    linarith
  · refine .inr ⟨interval_low_of_not_edge hp.pos hedge, ?_⟩
    have hlt : partsMagnitude p ≤ 2 ^ 53 * 2 ^ p.exponent :=
      mul_le_mul_of_nonneg_right (by exact_mod_cast hp.lt.le) hpos.le
    linarith

/-! ## Zeros at the end -/

@[simp] theorem stripZeros_exact (fuel : ℕ) (d : Decimal) : (stripZeros fuel d).exact = d.exact := by
  induction fuel generalizing d with
  | zero => rfl
  | succ fuel ih =>
    rw [stripZeros]
    split_ifs with h
    · have hsplit : d.digits = 10 * (d.digits / 10) := by omega
      rw [ih, exact, exact, zpow_add₀ (by norm_num), hsplit]
      push_cast
      rw [Nat.mul_div_cancel_left _ (by norm_num)]
      ring
    · rfl

/-- The decimal that is written for a finite double rounds to its magnitude. -/
theorem nearest_literal {x : Float} (hx : x.isFinite = true) :
    nearest (NumberForm.literal.decimal x).exact = |Double.exact x| := by
  have hform : NumberForm.literal.decimal x = stripZeros 400 (shortest x) := rfl
  rw [hform, stripZeros_exact, abs_exact_eq hx]
  unfold shortest
  dsimp only
  split_ifs with hzero
  · simp [exact, hzero]
  · have hp := normal_parts hzero
    obtain ⟨d, hd⟩ := Option.isSome_iff_exists.mp (search_seventeen hp)
    rw [hd]
    dsimp only
    rw [stripZeros_exact]
    exact nearest_of_contains hp (Interval.contains_of_search (interval_proper _) hd)

end Decimal

end TradeRules
