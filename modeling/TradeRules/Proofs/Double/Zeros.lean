import TradeRules.Proofs.Double.Monotone

/-!
# Doubles up to the sign of zero

There are two zeros, which are equal as numbers, and every other double is equal only to itself.
`UpToSign x y` says that `x` and `y` are one double or both zeros.  Unlike equality as numbers it
also relates NaN to itself, so it is an equivalence on all doubles.

The operations respect it, division only by numbers that are not zero.  This is proved of unpacked
doubles (`Coincide`), where it is a matter of cases, and carried over by packing.
-/

namespace TradeRules

namespace Double

open Float.Model Float.Model.UnpackedFloat

/-- Whether two doubles are the same up to the sign of zero. -/
def UpToSign (x y : Float) : Prop :=
  x = y ∨ (x == 0.0) = true ∧ (y == 0.0) = true

/-- Unpacked doubles that are the same up to the sign of zero. -/
inductive Coincide : UnpackedFloat → UnpackedFloat → Prop
  | refl (u : UnpackedFloat) : Coincide u u
  | zeros (s t : Sign) : Coincide (.zero s) (.zero t)

variable {x y x' y' : Float} {u v u' v' : UnpackedFloat}

/-! ## Unpacked doubles -/

theorem Coincide.neg (h : Coincide u v) : Coincide u.neg v.neg := by
  cases h with
  | refl => exact .refl _
  | zeros s t => exact .zeros (-s) (-t)

theorem Coincide.abs (h : Coincide u v) : Coincide u.abs v.abs := by
  cases h with
  | refl => exact .refl _
  | zeros s t => exact .refl _

theorem Coincide.add_left (h : Coincide u u') (v : UnpackedFloat) :
    Coincide (UnpackedFloat.add .binary64 u v) (UnpackedFloat.add .binary64 u' v) := by
  cases h with
  | refl => exact .refl _
  | zeros s t =>
    cases v with
    | notANumber => exact .refl _
    | infinity r => exact .refl _
    | zero r => cases s <;> cases t <;> cases r <;> exact .zeros _ _
    | finite r m e hm => exact .refl _

theorem Coincide.mul_left (h : Coincide u u') (v : UnpackedFloat) :
    Coincide (UnpackedFloat.mul .binary64 u v) (UnpackedFloat.mul .binary64 u' v) := by
  cases h with
  | refl => exact .refl _
  | zeros s t =>
    cases v with
    | notANumber => exact .refl _
    | infinity r => exact .refl _
    | zero r => exact .zeros (s * r) (t * r)
    | finite r m e hm => exact .zeros (s * r) (t * r)

theorem Coincide.div_left (h : Coincide u u') (v : UnpackedFloat) :
    Coincide (UnpackedFloat.div .binary64 u v) (UnpackedFloat.div .binary64 u' v) := by
  cases h with
  | refl => exact .refl _
  | zeros s t =>
    cases v with
    | notANumber => exact .refl _
    | infinity r => exact .zeros (s / r) (t / r)
    | zero r => exact .refl _
    | finite r m e hm => exact .zeros (s / r) (t / r)

theorem sign_mul_swap (s t : Sign) : s * t = t * s := by
  cases s <;> cases t <;> rfl

theorem mul_unpacked_swap (u v : UnpackedFloat) :
    UnpackedFloat.mul .binary64 u v = UnpackedFloat.mul .binary64 v u := by
  cases u with
  | notANumber => cases v <;> rfl
  | infinity s => cases v <;> simp only [UnpackedFloat.mul, sign_mul_swap]
  | zero s => cases v <;> simp only [UnpackedFloat.mul, sign_mul_swap]
  | finite s m e hm =>
    cases v <;> simp only [UnpackedFloat.mul, sign_mul_swap, Nat.mul_comm, Int.add_comm]

theorem mul_swap (x y : Float) : x * y = y * x :=
  congrArg (fun u => Float.ofModel (Float.Model.pack u)) (mul_unpacked_swap _ _)

/-- Comparisons do not tell the zeros apart. -/
theorem Coincide.compare_left (h : Coincide u u') (v : UnpackedFloat) :
    u.compare v = u'.compare v := by
  cases h with
  | refl => rfl
  | zeros s t =>
    cases v with
    | notANumber => rfl
    | infinity r => cases r <;> rfl
    | zero r => rfl
    | finite r m e hm => cases r <;> rfl

theorem Coincide.compare_right (h : Coincide v v') (u : UnpackedFloat) :
    u.compare v = u.compare v' := by
  cases h with
  | refl => rfl
  | zeros s t =>
    cases u with
    | notANumber => rfl
    | infinity r => cases r <;> rfl
    | zero r => rfl
    | finite r m e hm => cases r <;> rfl

theorem Coincide.isFinite_eq (h : Coincide u v) : u.isFinite = v.isFinite := by
  cases h with
  | refl => rfl
  | zeros s t => rfl

/-! ## Doubles -/

theorem zero_isFinite : (0.0 : Float).isFinite = true :=
  zero_exact.1

theorem negative_zero_isFinite : (-0.0 : Float).isFinite = true := by
  rw [neg_isFinite]
  exact zero_isFinite

theorem beq_swap (x y : Float) : (x == y) = (y == x) := by
  have himp : ∀ x y : Float, (x == y) = true → (y == x) = true := fun x y h => by
    obtain ⟨hx, hy⟩ := isNaN_of_beq h
    exact (beq_iff_extended hy hx).mpr ((beq_iff_extended hx hy).mp h).symm
  exact Bool.eq_iff_iff.mpr ⟨himp x y, himp y x⟩

/-- Doubles that equal a third are equal. -/
theorem beq_of_beq {z : Float} (hx : (x == z) = true) (hy : (y == z) = true) :
    (x == y) = true := by
  obtain ⟨nx, nz⟩ := isNaN_of_beq hx
  obtain ⟨ny, -⟩ := isNaN_of_beq hy
  rw [beq_iff_extended nx nz] at hx
  rw [beq_iff_extended ny nz] at hy
  exact (beq_iff_extended nx ny).mpr (hx.trans hy.symm)

theorem unpack_zero (s : Sign) :
    (Float.ofModel (Float.Model.pack (.zero s))).toModel.unpack = .zero s :=
  unpack_pack (u := .zero s) trivial trivial

/-- The doubles that are equal to zero are the two zeros. -/
theorem beq_zero_iff : (x == 0.0) = true ↔ ∃ s, x.toModel.unpack = .zero s := by
  obtain ⟨t, ht⟩ := unpack_of_exact_zero zero_exact.1 zero_exact.2
  show (UnpackedFloat.compare x.toModel.unpack (0.0 : Float).toModel.unpack == some .eq) = true ↔ _
  rw [ht]
  cases x.toModel.unpack with
  | notANumber => exact iff_of_false (fun h => by cases h) (by simp)
  | infinity r => cases r <;> exact iff_of_false (fun h => by cases h) (by simp)
  | zero r => exact iff_of_true rfl ⟨r, rfl⟩
  | finite r m e hm => cases r <;> exact iff_of_false (fun h => by cases h) (by simp)

theorem upToSign_iff : UpToSign x y ↔ Coincide x.toModel.unpack y.toModel.unpack := by
  constructor
  · rintro (rfl | ⟨hx, hy⟩)
    · exact .refl _
    · obtain ⟨s, hs⟩ := beq_zero_iff.mp hx
      obtain ⟨t, ht⟩ := beq_zero_iff.mp hy
      rw [hs, ht]
      exact .zeros s t
  · intro h
    generalize hu : x.toModel.unpack = u, hv : y.toModel.unpack = v at h
    cases h with
    | refl => exact .inl (eq_of_unpack_eq (hu.trans hv.symm))
    | zeros s t => exact .inr ⟨beq_zero_iff.mpr ⟨s, hu⟩, beq_zero_iff.mpr ⟨t, hv⟩⟩

theorem Coincide.pack (h : Coincide u v) :
    UpToSign (Float.ofModel (Float.Model.pack u)) (Float.ofModel (Float.Model.pack v)) := by
  cases h with
  | refl => exact .inl rfl
  | zeros s t =>
    exact .inr ⟨beq_zero_iff.mpr ⟨s, unpack_zero s⟩, beq_zero_iff.mpr ⟨t, unpack_zero t⟩⟩

namespace UpToSign

theorem refl (x : Float) : UpToSign x x :=
  .inl rfl

theorem of_beq_zero (h : (x == 0.0) = true) : UpToSign x 0.0 :=
  .inr ⟨h, (beq_iff_exact zero_exact.1 zero_exact.1).mpr rfl⟩

/-- Doubles that stand for one number. -/
theorem of_exact (hx : x.isFinite = true) (hy : y.isFinite = true) (h : exact x = exact y) :
    UpToSign x y := by
  by_cases hz : exact x = 0
  · exact .inr ⟨(beq_iff_exact hx zero_exact.1).mpr (hz.trans zero_exact.2.symm),
      (beq_iff_exact hy zero_exact.1).mpr (h.symm.trans (hz.trans zero_exact.2.symm))⟩
  · exact .inl (eq_of_exact_eq h hz)

theorem symm (h : UpToSign x y) : UpToSign y x := by
  rcases h with rfl | ⟨hx, hy⟩
  · exact .refl x
  · exact .inr ⟨hy, hx⟩

theorem trans {z : Float} (h : UpToSign x y) (h' : UpToSign y z) : UpToSign x z := by
  rcases h with rfl | ⟨hx, hy⟩
  · exact h'
  · rcases h' with rfl | ⟨-, hz⟩
    · exact .inr ⟨hx, hy⟩
    · exact .inr ⟨hx, hz⟩

/-! ## Operations -/

theorem coincide (h : UpToSign x y) : Coincide x.toModel.unpack y.toModel.unpack :=
  upToSign_iff.mp h

theorem neg (h : UpToSign x y) : UpToSign (-x) (-y) :=
  h.coincide.neg.pack

theorem abs (h : UpToSign x y) : UpToSign x.abs y.abs :=
  h.coincide.abs.pack

theorem add (hx : UpToSign x x') (hy : UpToSign y y') : UpToSign (x + y) (x' + y') := by
  have hleft : UpToSign (x + y) (x' + y) := (hx.coincide.add_left _).pack
  have hright : UpToSign (y + x') (y' + x') := (hy.coincide.add_left _).pack
  rw [add_swap y, add_swap y'] at hright
  exact hleft.trans hright

theorem sub (hx : UpToSign x x') (hy : UpToSign y y') : UpToSign (x - y) (x' - y') := by
  rw [sub_eq_add, sub_eq_add]
  exact hx.add hy.neg

theorem mul (hx : UpToSign x x') (hy : UpToSign y y') : UpToSign (x * y) (x' * y') := by
  have hleft : UpToSign (x * y) (x' * y) := (hx.coincide.mul_left _).pack
  have hright : UpToSign (y * x') (y' * x') := (hy.coincide.mul_left _).pack
  rw [mul_swap y, mul_swap y'] at hright
  exact hleft.trans hright

/-- Numbers that are equal up to the sign of zero give the same quotients by one number. -/
theorem div (hx : UpToSign x x') (y : Float) : UpToSign (x / y) (x' / y) :=
  (hx.coincide.div_left _).pack

/-! ## Comparisons -/

theorem compare_eq (hx : UpToSign x x') (hy : UpToSign y y') :
    UnpackedFloat.compare x.toModel.unpack y.toModel.unpack =
      UnpackedFloat.compare x'.toModel.unpack y'.toModel.unpack :=
  (hx.coincide.compare_left _).trans (hy.coincide.compare_right _)

theorem lt_iff (hx : UpToSign x x') (hy : UpToSign y y') : x < y ↔ x' < y' := by
  show decide (UnpackedFloat.lt _ _ = true) = true ↔ decide (UnpackedFloat.lt _ _ = true) = true
  unfold UnpackedFloat.lt
  rw [hx.compare_eq hy]

theorem le_iff (hx : UpToSign x x') (hy : UpToSign y y') : x ≤ y ↔ x' ≤ y' := by
  show decide (UnpackedFloat.le _ _ = true) = true ↔ decide (UnpackedFloat.le _ _ = true) = true
  unfold UnpackedFloat.le
  rw [hx.compare_eq hy]

theorem beq_eq (hx : UpToSign x x') (hy : UpToSign y y') : (x == y) = (x' == y') := by
  show UnpackedFloat.beq _ _ = UnpackedFloat.beq _ _
  unfold UnpackedFloat.beq
  rw [hx.compare_eq hy]

theorem isFinite_eq (h : UpToSign x y) : x.isFinite = y.isFinite :=
  h.coincide.isFinite_eq

/-- Numbers that are the same up to the sign of zero are equal as numbers, or both NaN. -/
theorem beq_or_isNaN (h : UpToSign x y) : (x == y) = true ∨ x.isNaN = true ∧ y.isNaN = true := by
  cases hx : x.isNaN with
  | false =>
    rw [(refl x).beq_eq h.symm]
    exact .inl ((beq_iff_extended hx hx).mpr rfl)
  | true =>
    rcases h with rfl | ⟨hzero, -⟩
    · exact .inr ⟨rfl, hx⟩
    · rw [(isNaN_of_beq hzero).1] at hx
      cases hx

end UpToSign

/-! ## Neutral operands -/

/-- Packing undoes unpacking. -/
theorem pack_unpack (x : Float) : Float.ofModel (Float.Model.pack x.toModel.unpack) = x :=
  eq_of_unpack_eq (unpack_pack (canonical_unpack _) (bounded_unpack _))

/-- A sum with zero is the other number.  The sum of two zeros is a zero, of either sign. -/
theorem upToSign_add_zero (x : Float) (hy : (y == 0.0) = true) : UpToSign (x + y) x := by
  obtain ⟨s, hs⟩ := beq_zero_iff.mp hy
  have hadd : Coincide (UnpackedFloat.add .binary64 x.toModel.unpack (.zero s)) x.toModel.unpack := by
    cases x.toModel.unpack with
    | notANumber => exact .refl _
    | infinity r => exact .refl _
    | zero r => cases r <;> cases s <;> exact .zeros _ _
    | finite r m e hm => exact .refl _
  rw [← hs] at hadd
  exact hadd.pack.trans (.inl (pack_unpack x))

theorem upToSign_sub_zero (x : Float) (hy : (y == 0.0) = true) : UpToSign (x - y) x := by
  have hneg : (-y == 0.0) = true := by
    obtain ⟨s, hs⟩ := beq_zero_iff.mp hy
    exact beq_zero_iff.mpr ⟨-s, by rw [unpack_neg, hs]; rfl⟩
  rw [sub_eq_add]
  exact upToSign_add_zero x hneg

/-- A quotient by one is the dividend. -/
theorem upToSign_div_one (x : Float) (hy : y.isFinite = true) (h : exact y = 1) :
    UpToSign (x / y) x := by
  cases hx : x.isFinite with
  | true =>
    have hround := div_isRounding hx hy (h ▸ one_ne_zero)
    rw [h, div_one] at hround
    obtain ⟨hfin, heq⟩ := hround.of_exact
    exact .of_exact hfin hx heq
  | false =>
    have hdiv : Coincide (UnpackedFloat.div .binary64 x.toModel.unpack y.toModel.unpack)
        x.toModel.unpack := by
      change x.toModel.unpack.isFinite = false at hx
      change y.toModel.unpack.isFinite = true at hy
      unfold exact at h
      generalize x.toModel.unpack = u at hx
      generalize y.toModel.unpack = v at hy h
      cases u with
      | notANumber => exact .refl _
      | infinity s =>
        cases v with
        | notANumber => cases hy
        | infinity t => cases hy
        | zero t => exact absurd h zero_ne_one
        | finite t m e hm =>
          obtain rfl := (sign_eq_of_magnitude_pos hm).mp (h ▸ one_pos)
          cases s <;> exact .refl _
      | zero s => cases hx
      | finite s m e hm => cases hx
    exact hdiv.pack.trans (.inl (pack_unpack x))

end Double

end TradeRules
