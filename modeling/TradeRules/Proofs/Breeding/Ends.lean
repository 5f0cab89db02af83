import TradeRules.Proofs.Breeding.Yields
import TradeRules.Proofs.Double.Number

/-!
# How random computations end

`Draw.Ends E m P` says that on numbers from 0 on and below 1 each result of the computation `m` satisfies
`P` and each failure `E`.  Where nothing satisfies `E`, the computation has a result.  A computation is
followed through its binds (`Ends.bind`), so a proof has to say of each step why it does not fail.

A random choice does not fail when there is something to choose.  For a table of weights that is an entry
of positive weight (`ends_choose`): a sum of doubles with a positive one among them is positive, whatever
the rounding.  The sum has to be finite as well, and then it is finite for any part of the table
(`WeightTable.CanGive.of_sublist`).
-/

namespace TradeRules

/-- Whether all numbers of a stream lie from 0 on and below 1. -/
def Draws.InUnit (d : Draws) : Prop :=
  ∀ i, 0.0 ≤ d.stream i ∧ d.stream i < 1.0

/-- A list of such numbers repeated is such a stream. -/
theorem Draws.inUnit_ofTape {tape : Array Float} (h : ∀ x ∈ tape, 0.0 ≤ x ∧ x < 1.0) :
    (Draws.ofTape tape).InUnit := by
  intro i
  show 0.0 ≤ (tape[i % tape.size]?).getD 0.0 ∧ (tape[i % tape.size]?).getD 0.0 < 1.0
  cases hx : tape[i % tape.size]? with
  | none => decide +kernel
  | some x => exact h x (Array.mem_of_getElem? hx)

/-! ## What a table can give -/

namespace WeightTable

variable {table few all : WeightTable} {p : String → Prop}

/-- Whether a name can be chosen from a table, and one with a property: it has a positive weight, and the
positive weights have a finite sum. -/
@[mk_iff] structure CanGive (table : WeightTable) (p : String → Prop) : Prop where
  name : ∃ name ∈ table.positive.names, p name
  total : table.positive.total.isFinite = true

instance [DecidablePred p] : Decidable (table.CanGive p) :=
  decidable_of_iff' _ (canGive_iff table p)

theorem CanGive.ne_nil (h : table.CanGive p) : table.positive ≠ [] := by
  obtain ⟨name, hname, -⟩ := h.name
  intro hnil
  rw [hnil] at hname
  cases hname

theorem pos_of_mem_positive {entry : String × Float} (h : entry ∈ table.positive) : 0.0 < entry.2 :=
  of_decide_eq_true (List.mem_filter.mp h).2

/-- A running sum is finite where it is finite in the end. -/
theorem isFinite_of_foldl {sum : Float}
    (h : (table.foldl (fun sum entry => sum + entry.2) sum).isFinite = true) : sum.isFinite = true := by
  induction table generalizing sum with
  | nil => exact h
  | cons entry rest ih => exact (Double.isFinite_of_add (ih h)).1

/-- The running sum of some of the weights is no larger than that of all, hence finite with it. -/
theorem isFinite_foldl_of_sublist (hsub : few.Sublist all) (hpos : ∀ entry ∈ all, 0.0 < entry.2)
    {sum sum' : Float} (h0 : 0.0 ≤ sum) (hle : sum ≤ sum')
    (hfin : (all.foldl (fun sum entry => sum + entry.2) sum').isFinite = true) :
    (few.foldl (fun sum entry => sum + entry.2) sum).isFinite = true := by
  induction hsub generalizing sum sum' with
  | slnil => exact Double.isFinite_of_between Double.zero_exact.1 hfin h0 hle
  | cons entry hsub ih =>
    obtain ⟨hentry, hrest⟩ := List.forall_mem_cons.mp hpos
    refine ih hrest h0 ?_ hfin
    exact Double.le_of_not_lt (Double.isNaN_of_isFinite (isFinite_of_foldl hfin))
      (Double.isNaN_of_le hle).1
      (Double.not_add_lt_of_nonneg (Double.not_lt_of_le hle) (Double.not_lt_of_le (Double.le_of_lt hentry)))
  | cons_cons entry hsub ih =>
    obtain ⟨hentry, hrest⟩ := List.forall_mem_cons.mp hpos
    obtain ⟨-, hweight⟩ := Double.isFinite_of_add (isFinite_of_foldl hfin)
    have hsum : (sum + entry.2).isNaN = false := Double.isNaN_add (Double.isNaN_of_le hle).1 hweight
    refine ih hrest ?_ ?_ hfin
    · exact Double.le_of_not_lt hsum (Double.isNaN_of_isFinite Double.zero_exact.1)
        (Double.not_add_lt_of_nonneg (Double.not_lt_of_le h0)
          (Double.not_lt_of_le (Double.le_of_lt hentry)))
    · exact Double.le_of_not_lt (Double.isNaN_of_isFinite (isFinite_of_foldl hfin)) hsum
        (Double.not_add_lt (Double.not_lt_of_le hle) (Double.not_lt_self _))

/-- A part of a table can give a name when the table can, unless no weight in it is positive. -/
theorem CanGive.of_sublist (h : all.CanGive p) (hsub : few.Sublist all) (hne : few.positive ≠ []) :
    few.CanGive fun _ => True := by
  have hzero : (0.0 : Float) ≤ 0.0 := by decide +kernel
  obtain ⟨entry, hentry⟩ := List.exists_mem_of_ne_nil _ hne
  exact ⟨⟨entry.1, List.mem_map_of_mem hentry, trivial⟩,
    isFinite_foldl_of_sublist (hsub.filter _) (fun _ => pos_of_mem_positive) hzero hzero h.total⟩

end WeightTable

namespace Draw

variable {α β : Type} {E : BreedError → Prop} {P Q : α → Prop} {R : β → Prop}

/-- Whether the results of a computation on numbers of the unit interval have one property, and its
failures another. -/
def Ends (E : BreedError → Prop) (m : Draw α) (P : α → Prop) : Prop :=
  ∀ d, d.InUnit → (m.run.run d).2.InUnit ∧
    match (m.run.run d).1 with
    | .ok a => P a
    | .error e => E e

/-- What is known of a run that has a result. -/
theorem Ends.ok {m : Draw α} (h : Ends E m P) {d d' : Draws} (hd : d.InUnit) {a : α}
    (hrun : m.run.run d = (.ok a, d')) : P a ∧ d'.InUnit := by
  have hends := h d hd
  rw [hrun] at hends
  exact ⟨hends.2, hends.1⟩

/-- A computation that cannot fail has a result. -/
theorem Ends.exists_ok {m : Draw α} (h : Ends E m P) (hE : ∀ e, ¬E e) {d : Draws} (hd : d.InUnit) :
    ∃ a d', m.run.run d = (.ok a, d') ∧ P a := by
  have hends := (h d hd).2
  cases hrun : m.run.run d with
  | mk r d' =>
    rw [hrun] at hends
    cases r with
    | ok a => exact ⟨a, d', rfl, hends⟩
    | error e => exact absurd hends (hE e)

/-! ## Structure -/

theorem Ends.mono {m : Draw α} (h : Ends E m P) (himp : ∀ a, P a → Q a) : Ends E m Q := by
  intro d hd
  obtain ⟨hunit, hends⟩ := h d hd
  refine ⟨hunit, ?_⟩
  cases hrun : (m.run.run d).1 with
  | ok a =>
    rw [hrun] at hends
    exact himp a hends
  | error e =>
    rw [hrun] at hends
    exact hends

/-- What a computation yields on any draws, it yields here as well. -/
theorem Ends.and {m : Draw α} (h : Ends E m P) (hy : Yields m Q) : Ends E m fun a => P a ∧ Q a := by
  intro d hd
  obtain ⟨hunit, hends⟩ := h d hd
  have hyields := hy d
  refine ⟨hunit, ?_⟩
  cases hrun : (m.run.run d).1 with
  | ok a =>
    rw [hrun] at hends hyields
    exact ⟨hends, hyields⟩
  | error e =>
    rw [hrun] at hends
    exact hends

theorem Ends.pure {a : α} (h : P a) : Ends E (pure a : Draw α) P :=
  fun _ hd => ⟨hd, h⟩

theorem Ends.throw {e : BreedError} (h : E e) : Ends E (throw e : Draw α) P :=
  fun _ hd => ⟨hd, h⟩

/-- The rest of a computation starts from what the first part ends with. -/
theorem Ends.bind {m : Draw α} {f : α → Draw β} (hm : Ends E m P)
    (hf : ∀ a, P a → Ends E (f a) R) : Ends E (m >>= f) R := by
  intro d hd
  have hends := hm d hd
  rw [run_bind]
  cases hrun : m.run.run d with
  | mk r d' =>
    rw [hrun] at hends
    cases r with
    | ok a => exact hf a hends.2 d' hends.1
    | error e => exact hends

theorem Ends.ite {c : Prop} [Decidable c] {m m' : Draw α} (h : c → Ends E m P)
    (h' : ¬c → Ends E m' P) : Ends E (if c then m else m') P := by
  split_ifs with hc
  · exact h hc
  · exact h' hc

/-! ## Random numbers -/

/-- A random number of the unit interval. -/
theorem ends_unit : Ends E unit fun x => 0.0 ≤ x ∧ x < 1.0 :=
  fun d hd => ⟨hd, hd d.count⟩

/-- What is built is the result, and what cannot be built the failure. -/
theorem ends_built {r : Except BuildError α} (hok : ∀ a, r = .ok a → P a)
    (herror : ∀ e, r = .error e → E (.build e)) : Ends E (built r) P := by
  intro d hd
  cases r with
  | ok a => exact ⟨hd, hok a rfl⟩
  | error e => exact ⟨hd, herror e rfl⟩

theorem unit_exact {x : Float} (hx : 0.0 ≤ x ∧ x < 1.0) :
    x.isFinite = true ∧ 0 ≤ Double.exact x ∧ Double.exact x ≤ 1 := by
  obtain ⟨hzero, hzero'⟩ := Double.zero_exact
  obtain ⟨hone, hone'⟩ := Double.one_exact
  have hfin : x.isFinite = true := Double.isFinite_of_between hzero hone hx.1 (Double.le_of_lt hx.2)
  have hlow := (Double.le_iff_exact hzero hfin).mp hx.1
  have hhigh := (Double.lt_iff_exact hfin hone).mp hx.2
  rw [hzero'] at hlow
  rw [hone'] at hhigh
  exact ⟨hfin, hlow, hhigh.le⟩

/-- A random number scaled by a natural number lies between zero and that number. -/
theorem scaled_exact {x : Float} (hx : 0.0 ≤ x ∧ x < 1.0) {n : ℕ} (hn : n ≤ 2 ^ 53) :
    (x * Double.ofNat n).isFinite = true ∧ 0 ≤ Double.exact (x * Double.ofNat n) ∧
      Double.exact (x * Double.ofNat n) ≤ n := by
  obtain ⟨hfin, hlow, hhigh⟩ := unit_exact hx
  obtain ⟨hnfin, hnexact⟩ := Double.ofNat_exact hn
  have hround := Double.mul_isRounding hfin hnfin
  rw [hnexact] at hround
  have hbetween := hround.of_between (m := 0) (n := n) (by norm_num)
    (by rw [Nat.abs_cast]; exact_mod_cast hn)
    (by rw [Int.cast_zero]; positivity)
    (by rw [Int.cast_natCast]; exact mul_le_of_le_one_left (Nat.cast_nonneg n) hhigh)
  exact_mod_cast hbetween

/-- A natural number at most the given one, which only rounding can reach. -/
theorem ends_below {n : ℕ} (hn : n ≤ 2 ^ 53) : Ends E (below n) (· ≤ n) := by
  refine ends_unit.bind fun x hx => Ends.pure ?_
  obtain ⟨hfin, hlow, hhigh⟩ := scaled_exact hx hn
  have hfloor : ⌊Double.exact (x * Double.ofNat n)⌋ ≤ n := by
    have h := Int.floor_mono hhigh
    rwa [Int.floor_natCast] at h
  rw [Double.truncate_eq hfin, Double.towardZero, if_pos hlow]
  omega

theorem ends_pick (first : α) (rest : List α) : Ends E (pick first rest) fun _ => True :=
  (ends_unit.bind fun _ _ => Ends.pure trivial : Ends E (below _) fun _ => True).bind
    fun _ _ => Ends.pure trivial

/-! ## Choices by weight -/

/-- The running sum of positive weights is positive. -/
theorem not_foldl_le_zero {table : WeightTable} (hpos : ∀ entry ∈ table, 0.0 < entry.2)
    (hne : table ≠ []) {sum : Float} (hsum : ¬sum < 0.0) :
    ¬table.foldl (fun sum entry => sum + entry.2) sum ≤ 0.0 := by
  induction table generalizing sum with
  | nil => exact absurd rfl hne
  | cons entry rest ih =>
    have hnext : ¬sum + entry.2 ≤ 0.0 :=
      Double.not_add_le_zero hsum (hpos entry List.mem_cons_self)
    cases hrest : rest with
    | nil => exact hnext
    | cons second others =>
      rw [← hrest, List.foldl_cons]
      refine ih (fun e he => hpos e (List.mem_cons_of_mem entry he)) ?_ fun hlt => ?_
      · rw [hrest]
        exact List.cons_ne_nil second others
      · exact hnext (Double.le_of_lt hlt)

/-- From weights with a positive finite sum one random number makes the choice. -/
theorem exists_weighted_eq {table : WeightTable} (hne : table ≠ []) (htotal : ¬table.total ≤ 0.0)
    (hfin : table.total.isFinite = true) :
    ∃ chosen : Float → String, weighted table = do return chosen (← unit) := by
  cases table with
  | nil => exact absurd rfl hne
  | cons entry rest =>
    refine ⟨fun x => passing (x * WeightTable.total (entry :: rest)) 0.0 entry.1 (entry :: rest), ?_⟩
    unfold weighted
    dsimp only
    rw [if_neg htotal, if_neg (by simp [hfin])]

theorem ends_weighted {table : WeightTable} (hpos : ∀ entry ∈ table, 0.0 < entry.2)
    (hne : table ≠ []) (hfin : table.total.isFinite = true) :
    Ends E (weighted table) (· ∈ table.names) := by
  have htotal : ¬table.total ≤ 0.0 :=
    not_foldl_le_zero hpos hne (Double.not_lt_self 0.0)
  obtain ⟨chosen, heq⟩ := exists_weighted_eq hne htotal hfin
  have hends : Ends E (weighted table) fun _ => True := by
    rw [heq]
    exact ends_unit.bind fun _ _ => Ends.pure trivial
  exact (hends.and (yields_weighted table)).mono fun _ h => h.2

/-- A name of positive weight is chosen if the table can give one. -/
theorem ends_choose {table : WeightTable} {p : String → Prop} (h : table.CanGive p) :
    Ends E (choose table) (· ∈ table.positive.names) := by
  unfold choose
  rw [if_neg (by rw [List.isEmpty_iff]; exact h.ne_nil)]
  exact ends_weighted (fun _ => WeightTable.pos_of_mem_positive) h.ne_nil h.total

end Draw

end TradeRules
