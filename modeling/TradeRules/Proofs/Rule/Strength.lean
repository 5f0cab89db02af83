import TradeRules.Proofs.Rule.Guarded

/-!
# The range of the relative strength

The relative strength of finite closes divides by no zero and lies between 0 and 100
(`Samples.relativeStrength_in_range`).  It is 50 when nothing moves, 100 when the closes only rise and 0 when
they only fall.

The guards ask for the changes of the closes, and a change is positive exactly when the close rises: doubles
are multiples of the least one, so the difference of two of them does not underflow (`Double.sub_pos_iff`,
`Double.sub_neg_iff`).  That the average fall is positive is asked for as `Samples.MeansPositive`, which holds
for any number of closes that a double can hold (`Samples.meansPositive_of_isFinite`).

The range follows step by step.  The ratio of the averages is not negative, so one more than it is at least
one, and a number divided by that stays between zero and itself (`Double.div_within`).  The ratio is a number
because the average fall is finite, and for that the sum of the falls has to be.
-/

namespace TradeRules

namespace Double

open Float.Model Float.Model.UnpackedFloat

variable {x y : Float} {q : ℚ}

/-! ## Differences -/

/-- A finite double is a multiple of the least one. -/
theorem exists_multiple (hx : x.isFinite = true) : ∃ n : ℤ, exact x = n * least := by
  obtain ⟨k, hk⟩ := Int.le.dest (parts_exponent_ge x)
  refine ⟨signed (parts x).negative (parts x).mantissa * 2 ^ k, ?_⟩
  rw [exact_parts hx, ← hk, zpow_add₀ two_ne_zero, zpow_natCast, Int.cast_mul, Int.cast_pow,
    Int.cast_ofNat, least]
  ring

/-- Two finite doubles are apart by the least one, unless they are equal. -/
theorem least_le_sub (hx : x.isFinite = true) (hy : y.isFinite = true) (h : x < y) :
    least ≤ exact y - exact x := by
  obtain ⟨m, hm⟩ := exists_multiple hx
  obtain ⟨n, hn⟩ := exists_multiple hy
  have hlt := (lt_iff_exact hx hy).mp h
  rw [hm, hn] at hlt ⊢
  have hmn : (m : ℚ) < n := lt_of_mul_lt_mul_right hlt least_pos.le
  have hone : (1 : ℚ) ≤ n - m := by
    have : m + 1 ≤ n := by exact_mod_cast hmn
    have : (m + 1 : ℚ) ≤ n := by exact_mod_cast this
    linarith
  calc least = 1 * least := (one_mul _).symm
    _ ≤ (n - m) * least := mul_le_mul_of_nonneg_right hone least_pos.le
    _ = n * least - m * least := by ring

/-- A difference of finite doubles stands for the rounded difference. -/
theorem extended_sub (hx : x.isFinite = true) (hy : y.isFinite = true) :
    extended (x - y) = roundedRat (exact x - exact y) :=
  extendedOf_pack (sub_stands (canonical_model x) (canonical_model y) hx hy)

theorem roundedRat_pos (h : least ≤ q) : 0 < roundedRat q := by
  have hle : ((least : WithTop ℚ) : Extended) ≤ roundedRat q :=
    le_roundedRat least_pos.le (least_le_nearest (by have := least_pos; linarith))
  exact (WithBot.coe_lt_coe.mpr (WithTop.coe_lt_coe.mpr least_pos)).trans_le hle

theorem roundedRat_neg (h : q ≤ -least) : roundedRat q < 0 := by
  have hgrid : nearest (-least) = -least := by
    have hleast := nearest_of_grid (n := -1) (e := -1074) (by norm_num) le_rfl
    rwa [Int.cast_neg, Int.cast_one, neg_one_mul] at hleast
  have hrange : InRange (nearest (-least)) := by
    rw [hgrid, InRange, abs_neg, abs_of_pos least_pos]
    calc least ≤ 1 := zpow_le_one_of_nonpos₀ (by norm_num) (by norm_num)
      _ < 2 ^ 1024 := one_lt_pow₀ (by norm_num) (by norm_num)
  have hround := roundedRat_of_inRange hrange
  rw [hgrid] at hround
  refine (roundedRat_mono h).trans_lt ?_
  rw [hround]
  exact WithBot.coe_lt_coe.mpr (WithTop.coe_lt_coe.mpr (neg_neg_of_pos least_pos))

/-- A difference is positive exactly when the first number is greater. -/
theorem sub_pos_iff (hx : x.isFinite = true) (hy : y.isFinite = true) : 0.0 < y - x ↔ x < y := by
  have hnumber := isNaN_sub hy (isNaN_of_isFinite hx)
  constructor
  · intro hpos
    by_contra hle
    exact not_lt_of_le (sub_le_zero_of_le hy hx
      (le_of_not_lt (isNaN_of_isFinite hx) (isNaN_of_isFinite hy) hle)) hpos
  · intro hlt
    rw [lt_iff_extended (isNaN_of_isFinite zero_exact.1) hnumber, extended_zero, extended_sub hy hx]
    exact roundedRat_pos (least_le_sub hx hy hlt)

/-- It is negative exactly when the first number is less. -/
theorem sub_neg_iff (hx : x.isFinite = true) (hy : y.isFinite = true) : y - x < 0.0 ↔ y < x := by
  have hnumber := isNaN_sub hy (isNaN_of_isFinite hx)
  constructor
  · intro hneg
    by_contra hle
    exact not_sub_lt_zero hle hneg
  · intro hlt
    rw [lt_iff_extended hnumber (isNaN_of_isFinite zero_exact.1), extended_zero, extended_sub hy hx]
    refine roundedRat_neg ?_
    have := least_le_sub hy hx hlt
    linarith

/-! ## Quotients -/

/-- A finite number divided by a number of at least one is finite. -/
theorem isFinite_div (hx : x.isFinite = true) (hy : y.isFinite = true) (h : 1 ≤ exact y) :
    (x / y).isFinite = true := by
  have hpos : 0 < exact y := by linarith
  have hround := div_isRounding hx hy hpos.ne'
  rcases le_total 0 (exact x) with hsign | hsign
  · exact (hround.within (x := 0.0) (y := x) (by rw [zero_exact.2]; exact div_nonneg hsign hpos.le)
      (div_le_self hsign h)).1
  · refine (hround.within (x := x) (y := 0.0) ?_
      (by rw [zero_exact.2]; exact div_nonpos_of_nonpos_of_nonneg hsign hpos.le)).1
    rw [le_div_iff₀ hpos]
    nlinarith

/-- Divided by a number of at least one, a number that is not negative stays between zero and itself. -/
theorem div_within (hx : x.isFinite = true) (h0 : 0.0 ≤ x) (hy : 1.0 ≤ y) :
    (x / y).isFinite = true ∧ 0.0 ≤ x / y ∧ x / y ≤ x := by
  have hy1 : AtLeast 1 y := by
    obtain ⟨hone, hnumber⟩ := isNaN_of_le hy
    rw [le_iff_extended hone hnumber, extended_of_isFinite one_exact.1, one_exact.2] at hy
    exact ⟨hnumber, hy⟩
  rw [le_iff_exact zero_exact.1 hx, zero_exact.2] at h0
  suffices hbounds : (x / y).isFinite = true ∧ 0 ≤ exact (x / y) ∧ exact (x / y) ≤ exact x by
    obtain ⟨hfinite, hlow, hhigh⟩ := hbounds
    rw [le_iff_exact zero_exact.1 hfinite, le_iff_exact hfinite hx, zero_exact.2]
    exact ⟨hfinite, hlow, hhigh⟩
  cases hyfin : y.isFinite with
  | true =>
    have hone := (atLeast_iff hyfin).mp hy1
    have hpos : 0 < exact y := by linarith
    have hwithin := (div_isRounding hx hyfin hpos.ne').within (x := 0.0) (y := x)
      (by rw [zero_exact.2]; exact div_nonneg h0 hpos.le) (div_le_self h0 hone)
    rwa [zero_exact.2] at hwithin
  | false =>
    obtain ⟨s, hs⟩ := unpack_div_infinity hx (hy1.unpack_infinity hyfin)
    have hzero : exact (x / y) = 0 := by
      rw [exact, hs]
      rfl
    refine ⟨?_, hzero.ge, by rw [hzero]; exact h0⟩
    show (x / y).toModel.unpack.isFinite = true
    rw [hs]
    rfl

/-- Only a finite divisor gives a positive quotient of a finite number. -/
theorem isFinite_of_div_pos (hx : x.isFinite = true) (h : 0.0 < x / y) : y.isFinite = true := by
  obtain ⟨hzero, hnumber⟩ := isNaN_of_lt h
  rw [lt_iff_extended hzero hnumber, extended_zero] at h
  have hdivisor : y.toModel.unpack.isNaN = false := (isNaN_of_div hnumber).2
  show y.toModel.unpack.isFinite = true
  cases hy : y.toModel.unpack with
  | notANumber =>
    rw [hy] at hdivisor
    cases hdivisor
  | infinity t =>
    obtain ⟨s, hs⟩ := unpack_div_infinity hx hy
    unfold extended at h
    rw [hs] at h
    exact absurd h (lt_irrefl _)
  | zero s => rfl
  | finite s m e hm => rfl

/-- Zero divided by a positive number is zero. -/
theorem zero_div_of_pos (h : 0.0 < y) : 0.0 / y = 0.0 := by
  have hleast := atLeast_of_pos h
  have hzero : (0.0 : Float).toModel.unpack = .zero .positive := rfl
  have hdiv : UnpackedFloat.div Format.binary64 (.zero .positive) y.toModel.unpack =
      .zero .positive := by
    cases hyfin : y.isFinite with
    | true =>
      have hpos : 0 < exact y := least_pos.trans_le ((atLeast_iff hyfin).mp hleast)
      unfold exact at hpos
      change y.toModel.unpack.isFinite = true at hyfin
      generalize y.toModel.unpack = v at hyfin hpos
      cases v with
      | notANumber => cases hyfin
      | infinity s => cases hyfin
      | zero s => exact absurd hpos (lt_irrefl 0)
      | finite s m e hm =>
        obtain rfl := (sign_eq_of_magnitude_pos hm).mp hpos
        rfl
    | false =>
      rw [hleast.unpack_infinity hyfin]
      rfl
  refine eq_of_unpack_eq ?_
  show UnpackedFloat.unpack Format.binary64 (UnpackedFloat.pack Format.binary64
    (UnpackedFloat.div Format.binary64 (0.0 : Float).toModel.unpack y.toModel.unpack)) = _
  rw [hzero, hdiv]
  exact unpack_pack (u := .zero .positive) trivial trivial

end Double

namespace Samples

open Double

variable {xs : List Float} {c x y : Float}

/-! ## Rises and falls -/

/-- Whether a sample is followed by a greater one. -/
def Rises (xs : List Float) : Prop :=
  ∃ front x y back, xs = front ++ x :: y :: back ∧ x < y

/-- Whether a sample is followed by a smaller one. -/
def Falls (xs : List Float) : Prop :=
  ∃ front x y back, xs = front ++ x :: y :: back ∧ y < x

/-- The changes are the differences of neighbours. -/
theorem mem_changes : c ∈ changes xs ↔ ∃ front x y back, xs = front ++ x :: y :: back ∧ c = y - x := by
  induction xs with
  | nil => simp [changes]
  | cons a xs ih =>
    cases xs with
    | nil =>
      -- One sample has no neighbour.
      refine iff_of_false List.not_mem_nil ?_
      rintro ⟨front, x, y, back, hxs, -⟩
      have hlength := congrArg List.length hxs
      simp only [List.length_cons, List.length_append, List.length_nil] at hlength
      omega
    | cons b rest =>
      rw [changes, List.mem_cons, ih]
      constructor
      · rintro (rfl | ⟨front, x, y, back, hxs, rfl⟩)
        · exact ⟨[], a, b, rest, rfl, rfl⟩
        · exact ⟨a :: front, x, y, back, by rw [hxs]; rfl, rfl⟩
      · rintro ⟨front, x, y, back, hxs, rfl⟩
        cases front with
        | nil =>
          cases hxs
          exact .inl rfl
        | cons d front =>
          exact .inr ⟨front, x, y, back, (List.cons.inj hxs).2, rfl⟩

theorem isFinite_of_neighbours {front back : List Float} (h : ∀ z ∈ xs, z.isFinite = true)
    (hxs : xs = front ++ x :: y :: back) : x.isFinite = true ∧ y.isFinite = true := by
  subst hxs
  exact ⟨h x (by simp), h y (by simp)⟩

/-- Among the changes of finite samples there is one of a sort exactly when there are such neighbours. -/
theorem filter_changes_ne_nil_iff {p : Float → Bool} {q : Float → Float → Prop}
    (h : ∀ z ∈ xs, z.isFinite = true)
    (hpq : ∀ {x y}, x.isFinite = true → y.isFinite = true → (p (y - x) = true ↔ q x y)) :
    (changes xs).filter p ≠ [] ↔ ∃ front x y back, xs = front ++ x :: y :: back ∧ q x y := by
  rw [← List.isEmpty_eq_false_iff, List.isEmpty_eq_false_iff_exists_mem]
  simp only [List.mem_filter, mem_changes]
  constructor
  · rintro ⟨c, ⟨front, x, y, back, hxs, rfl⟩, hp⟩
    obtain ⟨hx, hy⟩ := isFinite_of_neighbours h hxs
    exact ⟨front, x, y, back, hxs, (hpq hx hy).mp hp⟩
  · rintro ⟨front, x, y, back, hxs, hq⟩
    obtain ⟨hx, hy⟩ := isFinite_of_neighbours h hxs
    exact ⟨y - x, ⟨front, x, y, back, hxs, rfl⟩, (hpq hx hy).mpr hq⟩

/-- There are gains exactly when a close rises. -/
theorem gains_ne_nil_iff (h : ∀ z ∈ xs, z.isFinite = true) : gains xs ≠ [] ↔ Rises xs :=
  filter_changes_ne_nil_iff h fun hx hy => decide_eq_true_iff.trans (sub_pos_iff hx hy)

/-- There are losses exactly when a close falls. -/
theorem losses_ne_nil_iff (h : ∀ z ∈ xs, z.isFinite = true) : losses xs ≠ [] ↔ Falls xs := by
  rw [losses, Ne, List.map_eq_nil_iff]
  exact filter_changes_ne_nil_iff h fun hx hy => decide_eq_true_iff.trans (sub_neg_iff hx hy)

/-! ## The range -/

/-- A positive mean of samples with a finite sum is finite. -/
theorem isFinite_mean (hsum : (sum xs).isFinite = true) (hne : xs ≠ []) (hpos : 0.0 < mean xs) :
    (mean xs).isFinite = true := by
  have hcount := isFinite_of_div_pos hsum hpos
  exact isFinite_div hsum hcount (one_le_ofNat (List.length_pos_iff.mpr hne) hcount)

/-- A ratio that is not negative gives a strength between 0 and 100. -/
theorem strength_within (hnumber : x.isNaN = false) (h : ¬x < 0.0) :
    0.0 ≤ 100.0 - 100.0 / (1.0 + x) ∧ 100.0 - 100.0 / (1.0 + x) ≤ 100.0 := by
  have hsum : (1.0 + x).isNaN = false := by
    rw [add_swap]
    exact isNaN_add hnumber one_exact.1
  have hone : 1.0 ≤ 1.0 + x :=
    le_of_not_lt hsum (isNaN_of_isFinite one_exact.1) (not_add_lt_of_nonneg (not_lt_self _) h)
  obtain ⟨hfinite, hlow, hhigh⟩ := div_within hundred_exact.1 (by decide +kernel) hone
  have hdifference := isNaN_sub hundred_exact.1 (isNaN_of_isFinite hfinite)
  constructor
  · exact le_of_not_lt hdifference (isNaN_of_isFinite zero_exact.1) (not_sub_lt_zero (not_lt_of_le hhigh))
  · have hless := not_sub_lt (not_lt_self 100.0) (not_lt_of_le hlow)
    have hzero : (100.0 - 0.0 : Float) = 100.0 := by decide +kernel
    rw [hzero] at hless
    exact le_of_not_lt (isNaN_of_isFinite hundred_exact.1) hdifference hless

theorem relativeStrength_of_losses (h : losses xs ≠ []) : relativeStrength xs =
    100.0 - 100.0 / (1.0 + average (gains xs) / mean (losses xs)) := by
  unfold relativeStrength
  dsimp only
  rw [if_neg (by rwa [List.isEmpty_iff])]

theorem relativeStrength_of_no_losses (h : losses xs = []) :
    relativeStrength xs = if (gains xs).isEmpty then 50.0 else 100.0 := by
  unfold relativeStrength
  rw [h]
  rfl

/-- Fewer than two samples have no neighbours. -/
theorem changes_eq_nil (h : xs.length ≤ 1) : changes xs = [] := by
  match xs, h with
  | [], _ => rfl
  | [_], _ => rfl

/-- The relative strength of finite closes divides by no zero, and lies between 0 and 100 when the sum of
the falls is finite; that of the rises may overflow.  It is 50 when there are fewer than two closes or none
rises or falls, 100 when there are rises only, and 0 when there are falls only.  Means of positive samples
are taken to be positive. -/
theorem relativeStrength_in_range (hcloses : ∀ x ∈ xs, x.isFinite = true)
    (hmeans : MeansPositive xs.length) :
    Guarded.relativeStrength xs = .ok (relativeStrength xs) ∧
    ((sum (losses xs)).isFinite = true → 0.0 ≤ relativeStrength xs ∧ relativeStrength xs ≤ 100.0) ∧
    (xs.length ≤ 1 ∨ ¬Rises xs ∧ ¬Falls xs → relativeStrength xs = 50.0) ∧
    (Rises xs → ¬Falls xs → relativeStrength xs = 100.0) ∧
    (Falls xs → ¬Rises xs → relativeStrength xs = 0.0) := by
  have hgains := gains_ne_nil_iff hcloses
  have hlosses := losses_ne_nil_iff hcloses
  refine ⟨Guarded.relativeStrength_eq hmeans, fun hsum => ?_, fun hstill => ?_, fun hrises hfalls => ?_,
    fun hfalls hrises => ?_⟩
  · by_cases hdown : losses xs = []
    · rw [relativeStrength_of_no_losses hdown]
      split_ifs <;> decide +kernel
    · have hfall := mean_losses_pos hmeans hdown
      have hfinite := isFinite_mean hsum hdown hfall
      have hrise := average_gains_nonneg hmeans
      have hexact := (lt_iff_exact zero_exact.1 hfinite).mp hfall
      rw [zero_exact.2] at hexact
      rw [relativeStrength_of_losses hdown]
      exact strength_within (isNaN_div (isNaN_of_le hrise).2 hfinite hexact.ne')
        (not_div_lt_zero (not_lt_of_le hrise) hfall)
  · have hnone : gains xs = [] ∧ losses xs = [] := by
      rcases hstill with hshort | ⟨hrises, hfalls⟩
      · rw [gains, losses, changes_eq_nil hshort]
        exact ⟨rfl, rfl⟩
      · rw [← hgains, not_not] at hrises
        rw [← hlosses, not_not] at hfalls
        exact ⟨hrises, hfalls⟩
    rw [relativeStrength_of_no_losses hnone.2, hnone.1]
    rfl
  · rw [← hlosses, not_not] at hfalls
    rw [relativeStrength_of_no_losses hfalls, if_neg]
    rw [List.isEmpty_iff]
    exact hgains.mpr hrises
  · have hdown := hlosses.mpr hfalls
    rw [← hgains, not_not] at hrises
    rw [relativeStrength_of_losses hdown, hrises]
    show 100.0 - 100.0 / (1.0 + 0.0 / mean (losses xs)) = 0.0
    rw [zero_div_of_pos (mean_losses_pos hmeans hdown)]
    decide +kernel

/-- Closes that rise and fall, and closes that only fall. -/
theorem relativeStrength_in_range_mixed :
    (0.0 ≤ relativeStrength [10.0, 11.0, 10.5] ∧ relativeStrength [10.0, 11.0, 10.5] ≤ 100.0) ∧
      relativeStrength [11.0, 10.5] = 0.0 := by
  have hmixed : ∀ x ∈ [(10.0 : Float), 11.0, 10.5], x.isFinite = true := by
    simpa using by decide +kernel
  have hfalling : ∀ x ∈ [(11.0 : Float), 10.5], x.isFinite = true := by
    simpa using by decide +kernel
  obtain ⟨-, hrange, -⟩ :=
    relativeStrength_in_range hmixed (meansPositive_of_isFinite (by decide +kernel))
  obtain ⟨-, -, -, -, hzero⟩ :=
    relativeStrength_in_range hfalling (meansPositive_of_isFinite (by decide +kernel))
  have hnone : (gains [11.0, 10.5]).isEmpty = true := by decide +kernel
  refine ⟨hrange (by decide +kernel), hzero ⟨[], 11.0, 10.5, [], rfl, by decide +kernel⟩ ?_⟩
  rw [← gains_ne_nil_iff hfalling, not_not]
  exact List.isEmpty_iff.mp hnone

end Samples

end TradeRules
