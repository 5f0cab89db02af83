import TradeRules.Proofs.Double.Exact

/-!
# Doubles as rational numbers and infinities

A double that is not NaN is a rational number or one of two infinities, and these are ordered
(`Extended`).  Comparing two such doubles compares what they stand for (`lt_iff_extended`,
`le_iff_extended`, `beq_iff_extended`), so that doubles can be sorted, and the greatest of some taken.
The two zeros stand for one number.
-/

namespace TradeRules

namespace Double

open Float.Model Float.Model.UnpackedFloat

/-- A rational number or an infinity. -/
abbrev Extended : Type :=
  WithBot (WithTop ℚ)

/-- What an unpacked double stands for. -/
def extendedOf : UnpackedFloat → Extended
  | .infinity .negative => ⊥
  | .infinity .positive => ((⊤ : WithTop ℚ) : Extended)
  | u => ((magnitude u : WithTop ℚ) : Extended)

/-- What a double stands for, unless it is NaN. -/
def extended (x : Float) : Extended :=
  extendedOf x.toModel.unpack

variable {x y : Float} {u v : UnpackedFloat}

/-! ## Unpacked doubles -/

theorem extendedOf_of_finite (hu : u.isFinite = true) :
    extendedOf u = ((magnitude u : WithTop ℚ) : Extended) := by
  cases u with
  | notANumber => cases hu
  | infinity s => cases hu
  | zero s => rfl
  | finite s m e hm => rfl

/-- An infinity lies beyond all rational numbers. -/
theorem compare_infinity_left (s : Sign) (hv : v.isFinite = true) :
    (UnpackedFloat.infinity s).compare v = some (cmp (extendedOf (.infinity s)) (extendedOf v)) := by
  have hbot : cmp (⊥ : Extended) ((magnitude v : WithTop ℚ) : Extended) = .lt :=
    (cmp_eq_lt_iff _ _).mpr (WithBot.bot_lt_coe _)
  have htop : cmp ((⊤ : WithTop ℚ) : Extended) ((magnitude v : WithTop ℚ) : Extended) = .gt :=
    (cmp_eq_gt_iff _ _).mpr (WithBot.coe_lt_coe.mpr (WithTop.coe_lt_top _))
  rw [extendedOf_of_finite hv]
  cases s with
  | negative =>
    rw [extendedOf, hbot]
    cases v <;> first | rfl | cases hv
  | positive =>
    rw [extendedOf, htop]
    cases v <;> first | rfl | cases hv

theorem compare_infinity_right (s : Sign) (hu : u.isFinite = true) :
    u.compare (.infinity s) = some (cmp (extendedOf u) (extendedOf (.infinity s))) := by
  have hbot : cmp ((magnitude u : WithTop ℚ) : Extended) ⊥ = .gt :=
    (cmp_eq_gt_iff _ _).mpr (WithBot.bot_lt_coe _)
  have htop : cmp ((magnitude u : WithTop ℚ) : Extended) ((⊤ : WithTop ℚ) : Extended) = .lt :=
    (cmp_eq_lt_iff _ _).mpr (WithBot.coe_lt_coe.mpr (WithTop.coe_lt_top _))
  rw [extendedOf_of_finite hu]
  cases s with
  | negative =>
    rw [extendedOf, hbot]
    cases u <;> first | rfl | cases hu
  | positive =>
    rw [extendedOf, htop]
    cases u <;> first | rfl | cases hu

theorem compare_infinities (s t : Sign) :
    (UnpackedFloat.infinity s).compare (.infinity t) =
      some (cmp (extendedOf (.infinity s)) (extendedOf (.infinity t))) := by
  have hlt : cmp (⊥ : Extended) ((⊤ : WithTop ℚ) : Extended) = .lt :=
    (cmp_eq_lt_iff _ _).mpr (WithBot.bot_lt_coe _)
  have hgt : cmp ((⊤ : WithTop ℚ) : Extended) (⊥ : Extended) = .gt :=
    (cmp_eq_gt_iff _ _).mpr (WithBot.bot_lt_coe _)
  cases s with
  | negative =>
    cases t with
    | negative => rw [cmp_self_eq_eq]; rfl
    | positive => rw [extendedOf, extendedOf, hlt]; rfl
  | positive =>
    cases t with
    | negative => rw [extendedOf, extendedOf, hgt]; rfl
    | positive => rw [cmp_self_eq_eq]; rfl

/-- Comparing doubles that are numbers compares what they stand for. -/
theorem compare_eq_cmp_extended (hu : Canonical u) (hv : Canonical v) (nu : u.isNaN = false)
    (nv : v.isNaN = false) : u.compare v = some (cmp (extendedOf u) (extendedOf v)) := by
  have hfinite : u.isFinite = true → v.isFinite = true →
      u.compare v = some (cmp (extendedOf u) (extendedOf v)) := by
    intro fu fv
    rw [compare_eq_cmp hu hv fu fv, extendedOf_of_finite fu, extendedOf_of_finite fv]
    simp only [cmp, cmpUsing, WithBot.coe_lt_coe, WithTop.coe_lt_coe]
  cases u with
  | notANumber => cases nu
  | infinity s =>
    cases v with
    | notANumber => cases nv
    | infinity t => exact compare_infinities s t
    | zero t => exact compare_infinity_left s rfl
    | finite t n f hn => exact compare_infinity_left s rfl
  | zero s =>
    cases v with
    | notANumber => cases nv
    | infinity t => exact compare_infinity_right t rfl
    | zero t => exact hfinite rfl rfl
    | finite t n f hn => exact hfinite rfl rfl
  | finite s m e hm =>
    cases v with
    | notANumber => cases nv
    | infinity t => exact compare_infinity_right t rfl
    | zero t => exact hfinite rfl rfl
    | finite t n f hn => exact hfinite rfl rfl

/-! ## Comparisons -/

theorem compare_extended (hx : x.isNaN = false) (hy : y.isNaN = false) :
    UnpackedFloat.compare x.toModel.unpack y.toModel.unpack =
      some (cmp (extended x) (extended y)) :=
  compare_eq_cmp_extended (canonical_model x) (canonical_model y) hx hy

theorem lt_iff_extended (hx : x.isNaN = false) (hy : y.isNaN = false) :
    x < y ↔ extended x < extended y := by
  show decide (UnpackedFloat.lt x.toModel.unpack y.toModel.unpack = true) = true ↔ _
  rw [decide_eq_true_iff, UnpackedFloat.lt, compare_extended hx hy, ← cmp_eq_lt_iff]
  simp

theorem le_iff_extended (hx : x.isNaN = false) (hy : y.isNaN = false) :
    x ≤ y ↔ extended x ≤ extended y := by
  show decide (UnpackedFloat.le x.toModel.unpack y.toModel.unpack = true) = true ↔ _
  rw [decide_eq_true_iff, UnpackedFloat.le, compare_extended hx hy, Option.any_some,
    ← not_lt, ← cmp_eq_gt_iff]
  cases cmp (extended x) (extended y) <;> simp [Ordering.isLE]

theorem beq_iff_extended (hx : x.isNaN = false) (hy : y.isNaN = false) :
    (x == y) = true ↔ extended x = extended y := by
  show UnpackedFloat.beq x.toModel.unpack y.toModel.unpack = true ↔ _
  rw [UnpackedFloat.beq, compare_extended hx hy, ← cmp_eq_eq_iff]
  simp

/-- What equals something is a number. -/
theorem isNaN_of_beq (h : (x == y) = true) : x.isNaN = false ∧ y.isNaN = false := by
  change UnpackedFloat.beq x.toModel.unpack y.toModel.unpack = true at h
  show x.toModel.unpack.isNaN = false ∧ y.toModel.unpack.isNaN = false
  generalize x.toModel.unpack = u, y.toModel.unpack = v at h
  cases u <;> cases v <;> first | exact ⟨rfl, rfl⟩ | cases h

end Double

end TradeRules
