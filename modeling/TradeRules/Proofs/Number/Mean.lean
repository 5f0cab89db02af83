import TradeRules.Number.Aggregate
import TradeRules.Proofs.Double.Number

/-!
# Means of positive samples

The mean of positive samples is positive (`Samples.mean_pos`): it does not underflow to zero, however
small the samples and however many there are.

A positive double is at least the least one, `least`, so what is counted is multiples of it
(`Double.AtLeast`).  A sum of samples loses nothing of a multiple that is a double itself
(`AtLeast.add`), and one from left to right is at least as many times the least double as it has
samples.  A sum in halves is only counted up to a multiple `m * 2 ^ j` of at most that many, with `m` at
most eight, so that each half has half of it (`atLeast_pairwise`).  One with `m` at most three is two thirds
of the number of samples (`exists_scale`), and two thirds of the least double are rounded to it.
-/

namespace TradeRules

namespace Double

open Float.Model Float.Model.UnpackedFloat

variable {x y : Float} {p q : ℚ}

/-! ## Bounds from below -/

/-- The least positive double. -/
def least : ℚ :=
  2 ^ (-1074 : ℤ)

theorem least_pos : 0 < least :=
  two_zpow_pos _

/-- Whether a double is a number and not less than a rational number. -/
structure AtLeast (q : ℚ) (x : Float) : Prop where
  number : x.isNaN = false
  bound : ((q : WithTop ℚ) : Extended) ≤ extended x

theorem AtLeast.mono (h : AtLeast q x) (hpq : p ≤ q) : AtLeast p x :=
  ⟨h.number, (WithBot.coe_le_coe.mpr (WithTop.coe_le_coe.mpr hpq)).trans h.bound⟩

theorem atLeast_iff (hx : x.isFinite = true) : AtLeast q x ↔ q ≤ exact x := by
  constructor
  · intro h
    have hbound := h.bound
    rw [extended_of_isFinite hx] at hbound
    exact WithTop.coe_le_coe.mp (WithBot.coe_le_coe.mp hbound)
  · intro h
    refine ⟨isNaN_of_isFinite hx, ?_⟩
    rw [extended_of_isFinite hx]
    exact WithBot.coe_le_coe.mpr (WithTop.coe_le_coe.mpr h)

/-- A double that is infinite and not less than a number is positive infinity. -/
theorem AtLeast.unpack_infinity (h : AtLeast q x) (hx : x.isFinite = false) :
    x.toModel.unpack = .infinity .positive := by
  have hnumber := h.number
  have hbound := h.bound
  unfold extended at hbound
  change x.toModel.unpack.isNaN = false at hnumber
  change x.toModel.unpack.isFinite = false at hx
  cases hu : x.toModel.unpack with
  | notANumber =>
    rw [hu] at hnumber
    cases hnumber
  | infinity s =>
    cases s with
    | negative =>
      rw [hu] at hbound
      exact absurd hbound (WithBot.not_coe_le_bot _)
    | positive => rfl
  | zero s =>
    rw [hu] at hx
    cases hx
  | finite s m e hm =>
    rw [hu] at hx
    cases hx

theorem AtLeast.pos (h : AtLeast q x) (hq : 0 < q) : 0.0 < x := by
  rw [lt_iff_extended (isNaN_of_isFinite zero_exact.1) h.number, extended_zero]
  have hpos : (0 : Extended) < ((q : WithTop ℚ) : Extended) :=
    WithBot.coe_lt_coe.mpr (WithTop.coe_lt_coe.mpr hq)
  exact hpos.trans_le h.bound

/-- A positive double is at least the least one. -/
theorem atLeast_of_pos (h : 0.0 < x) : AtLeast least x := by
  have hnumber := (isNaN_of_lt h).2
  refine ⟨hnumber, ?_⟩
  cases hx : x.isFinite with
  | true =>
    rw [lt_iff_exact zero_exact.1 hx, zero_exact.2] at h
    have hmantissa : (1 : ℚ) ≤ (parts x).mantissa := by exact_mod_cast parts_mantissa_pos hx h
    rw [extended_of_isFinite hx, ← abs_of_pos h, abs_exact_eq hx]
    refine WithBot.coe_le_coe.mpr (WithTop.coe_le_coe.mpr ?_)
    calc least ≤ 2 ^ (parts x).exponent :=
          zpow_le_zpow_right₀ (by norm_num) (parts_exponent_ge x)
      _ = 1 * 2 ^ (parts x).exponent := (one_mul _).symm
      _ ≤ (parts x).mantissa * 2 ^ (parts x).exponent :=
          mul_le_mul_of_nonneg_right hmantissa (two_zpow_pos _).le
  | false =>
    have hzero : AtLeast 0 x := by
      rw [lt_iff_extended (isNaN_of_isFinite zero_exact.1) hnumber, extended_zero] at h
      exact ⟨hnumber, h.le⟩
    unfold extended
    rw [hzero.unpack_infinity hx]
    exact le_top

/-! ## Sums -/

theorem le_roundedRat (h0 : 0 ≤ p) (h : p ≤ nearest q) :
    ((p : WithTop ℚ) : Extended) ≤ roundedRat q := by
  have hpos := overflow_pos
  unfold roundedRat
  split_ifs with hover hunder
  · exact le_top
  · linarith
  · exact WithBot.coe_le_coe.mpr (WithTop.coe_le_coe.mpr h)

/-- Numbers that are bounded from below have a sum. -/
theorem AtLeast.isNaN_add (hx : AtLeast p x) (hy : AtLeast q y) : (x + y).isNaN = false := by
  cases hfin : y.isFinite with
  | true => exact Double.isNaN_add hx.number hfin
  | false =>
    have hu := hx.number
    change x.toModel.unpack.isNaN = false at hu
    show (UnpackedFloat.unpack Format.binary64 (UnpackedFloat.pack Format.binary64
      (UnpackedFloat.add Format.binary64 x.toModel.unpack y.toModel.unpack))).isNaN = false
    rw [hy.unpack_infinity hfin]
    cases hxfin : x.isFinite with
    | true =>
      change x.toModel.unpack.isFinite = true at hxfin
      generalize x.toModel.unpack = u at hxfin
      cases u <;> first | exact isNaN_pack_infinity .positive | cases hxfin
    | false =>
      rw [hx.unpack_infinity hxfin]
      exact isNaN_pack_infinity .positive

/-- A sum is at least the sum of two bounds that is a double. -/
theorem AtLeast.add (hx : AtLeast p x) (hy : AtLeast q y) (h0 : 0 ≤ p + q)
    (hgrid : nearest (p + q) = p + q) : AtLeast (p + q) (x + y) := by
  have hsum := hx.isNaN_add hy
  refine ⟨hsum, ?_⟩
  rw [extended_add hsum]
  exact (le_roundedRat h0 hgrid.ge).trans (rounded_mono (add_le_add hx.bound hy.bound))

/-- Multiples of the least double by a number of few digits are doubles. -/
theorem nearest_least {m : ℕ} (hm : m ≤ 2 ^ 53) (j : ℕ) :
    nearest ((m * 2 ^ j : ℕ) * least) = (m * 2 ^ j : ℕ) * least := by
  have h := nearest_of_grid (n := m) (e := j - 1074) (by rw [Nat.abs_cast]; exact_mod_cast hm) (by omega)
  have hscale : ((m * 2 ^ j : ℕ) : ℚ) * least = ((m : ℤ) : ℚ) * 2 ^ ((j : ℤ) - 1074) := by
    unfold least
    generalize hexp : (-1074 : ℤ) = e
    rw [show (j : ℤ) - 1074 = j + e by omega, zpow_add₀ two_ne_zero, zpow_natCast]
    push_cast
    ring
  rw [hscale, h]

/-- The sum of at least `m` and at least `n` times the least double. -/
theorem AtLeast.add_least {m n k j : ℕ} (hx : AtLeast (m * least) x) (hy : AtLeast (n * least) y)
    (hk : k ≤ 2 ^ 53) (hsum : m + n = k * 2 ^ j) : AtLeast ((k * 2 ^ j : ℕ) * least) (x + y) := by
  have hcast : (m * least + n * least : ℚ) = (k * 2 ^ j : ℕ) * least := by
    rw [← hsum]
    push_cast
    ring
  have hpos : 0 ≤ ((k * 2 ^ j : ℕ) : ℚ) * least := mul_nonneg (Nat.cast_nonneg _) least_pos.le
  have hadd := hx.add hy (by rwa [hcast]) (by rw [hcast]; exact nearest_least hk j)
  rwa [hcast] at hadd

theorem AtLeast.add_small {m n : ℕ} (hx : AtLeast (m * least) x) (hy : AtLeast (n * least) y)
    (hsum : m + n ≤ 2 ^ 53) : AtLeast ((m + n : ℕ) * least) (x + y) := by
  have h := hx.add_least hy hsum (j := 0) (by rw [pow_zero, mul_one])
  rwa [pow_zero, mul_one] at h

/-! ## Quotients -/

/-- Two thirds of the least double are rounded to it. -/
theorem least_le_nearest {q : ℚ} (h : 2 / 3 * least ≤ q) : least ≤ nearest q := by
  have hpos : 0 < 2 / 3 * least := mul_pos (by norm_num) least_pos
  have hspacing : spacing (2 / 3 * least) = -1074 := by
    refine le_antisymm (spacing_le hpos ?_ le_rfl) (le_max_right _ _)
    rw [zpow_add₀ two_ne_zero]
    show 2 / 3 * least < least * _
    have := least_pos
    nlinarith [show (1 : ℚ) ≤ 2 ^ (53 : ℤ) by norm_num]
  have hround : nearest (2 / 3 * least) = least := by
    rw [nearest_of_nonneg hpos.le, nearestMagnitude, hspacing]
    show (halfEven (2 / 3 * least / least) : ℚ) * least = least
    rw [mul_div_assoc, div_self least_pos.ne', mul_one]
    have hhalf : halfEven (2 / 3) = 1 := by
      norm_num [halfEven]
    rw [hhalf, Int.cast_one, one_mul]
  rw [← hround]
  exact nearest_mono h

/-- A quotient of finite doubles stands for the rounded quotient. -/
theorem extended_div (hx : x.isFinite = true) (hy : y.isFinite = true) (h : exact y ≠ 0) :
    extended (x / y) = roundedRat (exact x / exact y) :=
  extendedOf_pack (div_stands hx hy h)

/-- Positive infinity by a positive number is positive infinity. -/
theorem unpack_infinity_div (hx : x.toModel.unpack = .infinity .positive) (hy : y.isFinite = true)
    (h : 0 < exact y) : (x / y).toModel.unpack = .infinity .positive := by
  show UnpackedFloat.unpack Format.binary64 (UnpackedFloat.pack Format.binary64
    (UnpackedFloat.div Format.binary64 x.toModel.unpack y.toModel.unpack)) = _
  rw [hx]
  unfold exact at h
  change y.toModel.unpack.isFinite = true at hy
  generalize y.toModel.unpack = v at hy h
  cases v with
  | notANumber => cases hy
  | infinity s => cases hy
  | zero s => exact absurd h (lt_irrefl 0)
  | finite s m e hm =>
    obtain rfl := (sign_eq_of_magnitude_pos hm).mp h
    exact unpack_pack (u := .infinity .positive) trivial trivial

/-- A finite number by an infinity is a zero. -/
theorem unpack_div_infinity {t : Sign} (hx : x.isFinite = true)
    (hy : y.toModel.unpack = .infinity t) : ∃ s, (x / y).toModel.unpack = .zero s := by
  show ∃ s, UnpackedFloat.unpack Format.binary64 (UnpackedFloat.pack Format.binary64
    (UnpackedFloat.div Format.binary64 x.toModel.unpack y.toModel.unpack)) = .zero s
  rw [hy]
  change x.toModel.unpack.isFinite = true at hx
  generalize x.toModel.unpack = u at hx
  have hdiv : ∃ s, UnpackedFloat.div Format.binary64 u (.infinity t) = .zero s := by
    cases u with
    | notANumber => cases hx
    | infinity s => cases hx
    | zero s => exact ⟨s / t, rfl⟩
    | finite s m e hm => exact ⟨s / t, rfl⟩
  obtain ⟨s, hdiv⟩ := hdiv
  rw [hdiv]
  exact ⟨s, unpack_pack (u := .zero s) trivial trivial⟩

theorem extended_div_infinity (hx : x.isFinite = true) (hy : y.toModel.unpack = .infinity .positive) :
    extended (x / y) = 0 := by
  obtain ⟨s, hs⟩ := unpack_div_infinity hx hy
  unfold extended
  rw [hs]
  rfl

theorem extended_infinity (hx : x.toModel.unpack = .infinity .positive) : extended x = ⊤ := by
  unfold extended
  rw [hx]
  rfl

/-- A number by a positive number of at most one and a half times the size does not underflow. -/
theorem AtLeast.div_pos {m : ℕ} (hx : AtLeast (m * least) x) (hy : y.isFinite = true) (h0 : 0 < exact y)
    (h : exact y ≤ 3 / 2 * m) : 0.0 < x / y := by
  have hnumber := isNaN_div hx.number hy h0.ne'
  refine AtLeast.pos ⟨hnumber, ?_⟩ least_pos
  cases hfin : x.isFinite with
  | true =>
    rw [extended_div hfin hy h0.ne']
    refine le_roundedRat least_pos.le (least_le_nearest ?_)
    have hbound := (atLeast_iff hfin).mp hx
    have hleast := least_pos
    rw [le_div_iff₀ h0]
    nlinarith
  | false =>
    rw [extended_infinity (unpack_infinity_div (hx.unpack_infinity hfin) hy h0)]
    exact le_top

/-- A number that is not negative has no negative quotient by a positive number. -/
theorem not_div_lt_zero (hx : ¬x < 0.0) (hy : 0.0 < y) : ¬x / y < 0.0 := by
  intro hlt
  obtain ⟨hquotient, hzero⟩ := isNaN_of_lt hlt
  obtain ⟨hxn, hyn⟩ := isNaN_of_div hquotient
  rw [lt_iff_extended hxn hzero, not_lt, extended_zero] at hx
  have hx0 : AtLeast 0 x := ⟨hxn, hx⟩
  have hy0 := atLeast_of_pos hy
  rw [lt_iff_extended hquotient hzero, extended_zero] at hlt
  refine absurd hlt (not_lt.mpr ?_)
  cases hyfin : y.isFinite with
  | true =>
    have hpos : 0 < exact y := least_pos.trans_le ((atLeast_iff hyfin).mp hy0)
    cases hxfin : x.isFinite with
    | true =>
      rw [extended_div hxfin hyfin hpos.ne']
      have hnonneg : 0 ≤ exact x / exact y :=
        div_nonneg ((atLeast_iff hxfin).mp hx0) hpos.le
      exact le_roundedRat le_rfl (nearest_nonneg hnonneg)
    | false =>
      rw [extended_infinity (unpack_infinity_div (hx0.unpack_infinity hxfin) hyfin hpos)]
      exact le_top
  | false =>
    have hyu := hy0.unpack_infinity hyfin
    cases hxfin : x.isFinite with
    | true =>
      rw [extended_div_infinity hxfin hyu]
    | false =>
      -- Infinities have no quotient.
      change (UnpackedFloat.unpack Format.binary64 (UnpackedFloat.pack Format.binary64
        (UnpackedFloat.div Format.binary64 x.toModel.unpack y.toModel.unpack))).isNaN = false
        at hquotient
      rw [hx0.unpack_infinity hxfin, hyu] at hquotient
      cases hquotient

end Double

/-! ## Sums of samples -/

namespace Samples

open Double

variable {xs : List Float} {x : Float}

/-- The sum from left to right counts each sample. -/
theorem atLeast_foldl {m : ℕ} (hx : AtLeast (m * least) x) (h : ∀ y ∈ xs, AtLeast least y)
    (hlength : m + xs.length ≤ 2 ^ 53) :
    AtLeast ((m + xs.length : ℕ) * least) (xs.foldl (· + ·) x) := by
  induction xs generalizing m x with
  | nil => exact hx
  | cons y ys ih =>
    rw [List.length_cons] at hlength ⊢
    have hone : AtLeast ((1 : ℕ) * least) y := by
      rw [Nat.cast_one, one_mul]
      exact h y List.mem_cons_self
    have hnext := ih (hx.add_small hone (by omega)) (fun z hz => h z (List.mem_cons_of_mem y hz))
      (by omega)
    rwa [show m + 1 + ys.length = m + (ys.length + 1) by omega] at hnext

/-- Whether each of eight lanes is at least a multiple of the least double. -/
structure Lanes.AtLeast (m : ℕ) (l : Lanes) : Prop where
  r0 : Double.AtLeast (m * least) l.r0
  r1 : Double.AtLeast (m * least) l.r1
  r2 : Double.AtLeast (m * least) l.r2
  r3 : Double.AtLeast (m * least) l.r3
  r4 : Double.AtLeast (m * least) l.r4
  r5 : Double.AtLeast (m * least) l.r5
  r6 : Double.AtLeast (m * least) l.r6
  r7 : Double.AtLeast (m * least) l.r7

theorem Lanes.AtLeast.total {m : ℕ} {l : Lanes} (h : l.AtLeast m) (hm : 8 * m ≤ 2 ^ 53) :
    Double.AtLeast ((8 * m : ℕ) * least) l.total := by
  have h01 := h.r0.add_small h.r1 (by omega)
  have h23 := h.r2.add_small h.r3 (by omega)
  have h45 := h.r4.add_small h.r5 (by omega)
  have h67 := h.r6.add_small h.r7 (by omega)
  have hfirst := h01.add_small h23 (by omega)
  have hsecond := h45.add_small h67 (by omega)
  have hall := hfirst.add_small hsecond (by omega)
  rwa [show m + m + (m + m) + (m + m + (m + m)) = 8 * m by omega] at hall

theorem atLeast_lanes {m : ℕ} {l : Lanes} (hl : l.AtLeast m) (h : ∀ y ∈ xs, AtLeast least y)
    (hlength : 8 * m + xs.length ≤ 2 ^ 53) :
    AtLeast ((8 * m + xs.length : ℕ) * least) (l.add xs) := by
  fun_induction Lanes.add l xs generalizing m with
  | case1 l a b c d e f g k rest ih =>
    simp only [List.length_cons, List.forall_mem_cons] at h hlength ⊢
    obtain ⟨ha, hb, hc, hd, he, hf, hg, hk, hrest⟩ := h
    have hone : ∀ {x y : Float}, AtLeast (m * least) x → AtLeast least y →
        AtLeast ((m + 1 : ℕ) * least) (x + y) := fun hx hy =>
      hx.add_small (n := 1) (by rwa [Nat.cast_one, one_mul]) (by omega)
    have hnext := ih (m := m + 1)
      ⟨hone hl.r0 ha, hone hl.r1 hb, hone hl.r2 hc, hone hl.r3 hd, hone hl.r4 he, hone hl.r5 hf,
        hone hl.r6 hg, hone hl.r7 hk⟩ hrest (by omega)
    rwa [show 8 * (m + 1) + rest.length =
      8 * m + (rest.length + 1 + 1 + 1 + 1 + 1 + 1 + 1 + 1) by omega] at hnext
  | case2 l rest _ => exact atLeast_foldl (hl.total (by omega)) h hlength

/-- A short sum counts each sample. -/
theorem atLeast_block (h : ∀ y ∈ xs, AtLeast least y) (hlength : xs.length ≤ 2 ^ 53) :
    AtLeast (xs.length * least) (block xs) := by
  unfold block
  split
  · next a b c d e f g k rest =>
    simp only [List.length_cons, List.forall_mem_cons] at h hlength ⊢
    obtain ⟨ha, hb, hc, hd, he, hf, hg, hk, hrest⟩ := h
    have hone : ∀ {x : Float}, AtLeast least x → AtLeast ((1 : ℕ) * least) x := fun hx => by
      rwa [Nat.cast_one, one_mul]
    have hall := atLeast_lanes (m := 1) (l := ⟨a, b, c, d, e, f, g, k⟩)
      ⟨hone ha, hone hb, hone hc, hone hd, hone he, hone hf, hone hg, hone hk⟩ hrest (by omega)
    rwa [show 8 * 1 + rest.length =
      rest.length + 1 + 1 + 1 + 1 + 1 + 1 + 1 + 1 by omega] at hall
  · cases xs with
    | nil =>
      rw [List.length_nil, Nat.cast_zero, zero_mul]
      exact (atLeast_iff zero_exact.1).mpr zero_exact.2.ge
    | cons x ys =>
      obtain ⟨hx, hys⟩ := List.forall_mem_cons.mp h
      rw [List.length_cons] at hlength ⊢
      have hall := atLeast_foldl (m := 1) (by rwa [Nat.cast_one, one_mul]) hys (by omega)
      rwa [Nat.add_comm] at hall

/-- A sum in halves is at least each multiple by `m * 2 ^ j` of at most as many samples, with `m` at most
eight. -/
theorem atLeast_pairwise {m j : ℕ} (hm : m ≤ 8) (h : ∀ y ∈ xs, AtLeast least y)
    (hlength : m * 2 ^ j ≤ xs.length) : AtLeast ((m * 2 ^ j : ℕ) * least) (pairwise xs) := by
  have hless : ∀ {a b : ℕ}, a ≤ b → (a * least : ℚ) ≤ b * least := fun hab =>
    mul_le_mul_of_nonneg_right (by exact_mod_cast hab) least_pos.le
  induction xs using pairwise.induct generalizing m j
  case case1 xs hshort =>
    rw [pairwise, if_pos hshort]
    exact (atLeast_block h (by omega)).mono (hless hlength)
  case case2 xs hlong middle ihfirst ihsecond =>
    rw [pairwise, if_neg hlong]
    show AtLeast _ (pairwise (xs.take middle) + pairwise (xs.drop middle))
    have hmiddle : middle = xs.length / 2 - xs.length / 2 % 8 := rfl
    clear_value middle
    have hfirst : ∀ y ∈ xs.take middle, AtLeast least y := fun y hy => h y (List.mem_of_mem_take hy)
    have hsecond : ∀ y ∈ xs.drop middle, AtLeast least y := fun y hy => h y (List.mem_of_mem_drop hy)
    rw [List.length_take] at ihfirst
    rw [List.length_drop] at ihsecond
    rcases le_or_gt 4 j with hj | hj
    · -- Half the multiple is one by eight, so each half has as many samples.
      obtain ⟨i, rfl⟩ := Nat.exists_eq_add_of_le hj
      have hwhole : m * 2 ^ (4 + i) = 16 * (m * 2 ^ i) := by ring
      have hhalf : m * 2 ^ (3 + i) = 8 * (m * 2 ^ i) := by ring
      have hx := ihfirst (j := 3 + i) hm hfirst (by omega)
      have hy := ihsecond (j := 3 + i) hm hsecond (by omega)
      exact hx.add_least hy (by omega) (by omega)
    · -- The first half has sixty-four samples already.
      have hsmall : m * 2 ^ j ≤ 64 := by
        calc m * 2 ^ j ≤ 8 * 2 ^ 3 :=
              Nat.mul_le_mul hm (Nat.pow_le_pow_right (by norm_num) (by omega))
          _ = 64 := by norm_num
      have hx := ihfirst (j := j) hm hfirst (by omega)
      have hy := ihsecond (m := 0) (j := 0) (by omega) hsecond (by omega)
      exact hx.add_least hy (by omega) (by omega)

/-! ## Means -/

/-- A number of samples is at most one and a half times a number of at most two binary digits. -/
theorem exists_scale {n : ℕ} (hn : 0 < n) : ∃ m j, m ≤ 3 ∧ m * 2 ^ j ≤ n ∧ 2 * n ≤ 3 * (m * 2 ^ j) := by
  obtain rfl | htwo : n = 1 ∨ 2 ≤ n := by omega
  · exact ⟨1, 0, by norm_num, by norm_num, by norm_num⟩
  · have hlog : 1 ≤ Nat.log 2 n := Nat.log_pos (by norm_num) htwo
    have hlow : 2 ^ Nat.log 2 n ≤ n := Nat.pow_log_le_self 2 hn.ne'
    have hhigh : n < 2 ^ (Nat.log 2 n + 1) := Nat.lt_pow_succ_log_self (by norm_num) n
    obtain ⟨j, hj⟩ := Nat.exists_eq_add_of_le hlog
    rw [hj] at hlow hhigh
    have htwice : 2 ^ (1 + j) = 2 * 2 ^ j := by ring
    have hfour : 2 ^ (1 + j + 1) = 4 * 2 ^ j := by ring
    rcases lt_or_ge n (3 * 2 ^ j) with hlt | hge
    · exact ⟨2, j, by norm_num, by omega, by omega⟩
    · exact ⟨3, j, by norm_num, hge, by omega⟩

/-- A number of samples as a double is at most one and a half times such a number. -/
theorem exact_length_le {n m j : ℕ} (hn : (Double.ofNat n).isFinite = true) (hm : m ≤ 3)
    (hscale : 2 * n ≤ 3 * (m * 2 ^ j)) : exact (Double.ofNat n) ≤ 3 / 2 * (m * 2 ^ j : ℕ) := by
  have hgrid := nearest_of_grid (n := 3 * m) (e := j - 1) (by rw [abs_of_nonneg (by omega)]; omega)
    (by omega)
  have hbound : ((3 * m : ℤ) : ℚ) * 2 ^ ((j : ℤ) - 1) = 3 / 2 * (m * 2 ^ j : ℕ) := by
    rw [zpow_sub₀ two_ne_zero, zpow_natCast]
    push_cast
    ring
  have hle : (n : ℚ) ≤ 3 / 2 * (m * 2 ^ j : ℕ) := by
    have hcast : (2 * n : ℚ) ≤ 3 * (m * 2 ^ j : ℕ) := by exact_mod_cast hscale
    linarith
  rw [hbound] at hgrid
  rw [(ofNat_isRounding n).value hn, ← hgrid]
  exact nearest_mono hle

/-- A positive number of samples is at least one as a double. -/
theorem one_le_ofNat {n : ℕ} (h : 0 < n) (hn : (Double.ofNat n).isFinite = true) :
    1 ≤ exact (Double.ofNat n) := by
  have hone : (1 : ℚ) ≤ n := by exact_mod_cast h
  have hnearest := nearest_mono hone
  rwa [← Int.cast_one, nearest_of_int (by norm_num), Int.cast_one,
    ← (ofNat_isRounding _).value hn] at hnearest

/-- The mean of positive samples is positive. -/
theorem mean_pos (hne : xs ≠ []) (h : ∀ y ∈ xs, 0.0 < y)
    (hlength : (Double.ofNat xs.length).isFinite = true) : 0.0 < mean xs := by
  obtain ⟨m, j, hm, hlow, hhigh⟩ := exists_scale (List.length_pos_iff.mpr hne)
  have hsum : AtLeast ((m * 2 ^ j : ℕ) * least) (sum xs) := by
    have hzero : AtLeast ((0 : ℕ) * least) 0.0 :=
      (atLeast_iff zero_exact.1).mpr (by rw [zero_exact.2, Nat.cast_zero, zero_mul])
    have hpairs := atLeast_pairwise (by omega) (fun y hy => atLeast_of_pos (h y hy)) hlow
    exact hzero.add_least hpairs (by omega) (by omega)
  have hpos : 0 < exact (Double.ofNat xs.length) :=
    lt_of_lt_of_le one_pos (one_le_ofNat (List.length_pos_iff.mpr hne) hlength)
  exact hsum.div_pos hlength hpos (exact_length_le hlength hm hhigh)

/-- Whether means of at most so many positive samples are positive. -/
def MeansPositive (n : ℕ) : Prop :=
  ∀ ys : List Float, ys ≠ [] → (∀ y ∈ ys, 0.0 < y) → ys.length ≤ n → 0.0 < mean ys

/-- They are, unless the number of samples is too large for a double. -/
theorem meansPositive_of_isFinite {n : ℕ} (h : (Double.ofNat n).isFinite = true) : MeansPositive n :=
  fun _ hne hpos hlength => mean_pos hne hpos (isFinite_ofNat_mono hlength h)

end Samples

end TradeRules
