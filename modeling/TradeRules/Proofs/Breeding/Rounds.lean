import TradeRules.Proofs.Breeding.Stopping

/-!
# Mutations can always stop

A tree is mutated round after round while the dice say so.  The states before the rounds of a run are
related by `Generator.Reaches`.  A run comes through the states that it reaches (`Reaches.run_eq`), and
it comes through the same ones when the numbers after a state are exchanged (`Reaches.exchange`).

Unless the chance of a further mutation is 100, the numbers after any state can be exchanged for ones
that stop the mutations there, or after the one that is forced (`mutation_can_stop`).  With a chance of
100, which the settings may have, no numbers below 1 stop them once there was a mutation
(`mutateWithin_ne_ok`): rounding does not bring a random number up to 100 (`ends_below_hundred`).
-/

namespace TradeRules

open Draw

namespace Generator

variable {g : Generator} {e a : Expr} {k : Kind} {d d' d₁ : Draws} {percent p : ℤ} {n : ℕ}

/-! ## States -/

/-- Whether a state, that is a chance in percent, a tree and draws, is that before a round of the
mutations that start in another state, the given number of rounds later. -/
inductive Reaches (g : Generator) (percent : ℤ) (e : Expr) (d : Draws) :
    ℕ → ℤ → Expr → Draws → Prop where
  | start : g.Reaches percent e d 0 percent e d
  | round {n i : ℕ} {p : ℤ} {a b : Expr} {d₁ d₂ d₃ : Draws}
    (before : g.Reaches percent e d n p a d₁) (thrown : (below 100).run.run d₁ = (.ok i, d₂))
    (goesOn : (i : ℤ) < p) (mutated : (g.mutateOnce a).run.run d₂ = (.ok b, d₃)) :
    g.Reaches percent e d (n + 1) g.settings.extraMutationPercent b d₃

namespace Reaches

/-- A run comes through the states that it reaches. -/
theorem run_eq (h : g.Reaches percent e d n p a d₁) (rounds : ℕ) :
    (g.mutateWithin (n + rounds) percent e).run.run d = (g.mutateWithin rounds p a).run.run d₁ := by
  induction h generalizing rounds with
  | start => rw [Nat.zero_add]
  | @round n i p a b d₁ d₂ d₃ before thrown goesOn mutated ih =>
    rw [Nat.add_assoc, Nat.add_comm 1 rounds, ih, mutateWithin, run_bind_of_ok thrown,
      if_pos goesOn, run_bind_of_ok mutated]

theorem stream (h : g.Reaches percent e d n p a d₁) : d₁.stream = d.stream := by
  induction h with
  | start => rfl
  | round before thrown goesOn mutated ih =>
    rw [(reads_mutateOnce g _).stream_eq mutated, (reads_below 100).stream_eq thrown, ih]

theorem hasKind (h : g.Reaches percent e d n p a d₁) (hg : g.KnowsQuotes) (he : e.HasKind k) :
    a.HasKind k := by
  induction h with
  | start => exact he
  | round before thrown goesOn mutated ih => exact (yields_mutateOnce hg ih).ok mutated

/-- The numbers that come after a state do not matter for it. -/
theorem exchange (h : g.Reaches percent e d n p a d₁) (hcount : d'.count = d.count)
    (hagree : ∀ i < d₁.count, d'.stream i = d.stream i) :
    ∃ d₁', g.Reaches percent e d' n p a d₁' ∧ d₁'.count = d₁.count := by
  induction h with
  | start => exact ⟨d', .start, hcount⟩
  | @round n i p a b d₁ d₂ d₃ before thrown goesOn mutated ih =>
    have hbelow := reads_below 100
    have honce := reads_mutateOnce g a
    have hle₂ := hbelow.count_le thrown
    have hle₃ := honce.count_le mutated
    obtain ⟨d₁', hbefore, hcount₁⟩ := ih fun i hi => hagree i (hi.trans_le (hle₂.trans hle₃))
    obtain ⟨d₂', hthrown, hcount₂⟩ := hbelow.exchange thrown hcount₁ fun i hi => by
      rw [hbefore.stream, before.stream]
      exact hagree i (hi.trans_le hle₃)
    obtain ⟨d₃', hmutated, hcount₃⟩ := honce.exchange mutated hcount₂ fun i hi => by
      rw [hbelow.stream_eq hthrown, hbelow.stream_eq thrown, hbefore.stream, before.stream]
      exact hagree i hi
    exact ⟨d₃', .round hbefore hthrown goesOn hmutated, hcount₃⟩

end Reaches

/-! ## Mutations that do not stop -/

/-- A random number below 1, times a hundred, is less than a hundred even after rounding. -/
theorem ends_below_hundred {E : BreedError → Prop} : Ends E (below 100) (· < 100) := by
  refine ends_unit.bind fun x hx => Ends.pure ?_
  obtain ⟨hxfin, hlow, -⟩ := unit_exact hx
  obtain ⟨hfin, hproduct, -⟩ := scaled_exact hx (n := 100) (by norm_num)
  have hlt := (Double.lt_iff_exact hxfin Double.one_exact.1).mp hx.2
  rw [Double.one_exact.2] at hlt
  have hle := Double.exact_le_of_lt_one hxfin hlow hlt
  have hround := Double.mul_isRounding hxfin (Double.ofNat_exact (n := 100) (by norm_num)).1
  rw [(Double.ofNat_exact (n := 100) (by norm_num)).2] at hround
  have hless : Double.exact (x * Double.ofNat 100) < 100 := by
    have hmost : Double.nearest ((1 - 1 / 2 ^ 53) * 100) < 100 := by decide +kernel
    rw [hround.value hfin]
    refine lt_of_le_of_lt (Double.nearest_mono ?_) hmost
    push_cast
    linarith
  have hfloor : ⌊Double.exact (x * Double.ofNat 100)⌋ < 100 :=
    Int.floor_lt.mpr (by exact_mod_cast hless)
  rw [Double.truncate_eq hfin, Double.towardZero, if_pos hproduct]
  omega

/-- When each further mutation is certain, the mutations have no result after a first one. -/
theorem mutateWithin_ne_ok (hextra : g.settings.extraMutationPercent = 100) (rounds : ℕ)
    (hd : d.InUnit) (e e' : Expr) (d' : Draws) :
    (g.mutateWithin rounds 100 e).run.run d ≠ (.ok e', d') := by
  induction rounds generalizing d e with
  | zero => nofun
  | succ rounds ih =>
    intro hrun
    obtain ⟨i, d₁, hthrown, hrun⟩ := run_bind_eq_ok hrun
    obtain ⟨hi, hd₁⟩ := (ends_below_hundred (E := fun _ => True)).ok hd hthrown
    rw [if_pos (by omega), hextra] at hrun
    obtain ⟨e₁, d₂, hmutated, hrun⟩ := run_bind_eq_ok hrun
    have hd₂ : d₂.InUnit := fun i => by
      rw [(reads_mutateOnce g e).stream_eq hmutated]
      exact hd₁ i
    exact ih hd₂ e₁ hrun

/-- There are numbers on which they go on for ever: those that stop them at any other chance. -/
theorem mutateWithin_eq_endless (hg : g.Usable) (hextra : g.settings.extraMutationPercent = 100)
    (rounds : ℕ) (he : e.HasKind k) (hd : d.IsStopping) :
    ((g.mutateWithin rounds 100 e).run.run d).1 = .error .endless := by
  induction rounds generalizing d e with
  | zero => rfl
  | succ rounds ih =>
    obtain ⟨i, d₁, hthrown, rfl, hd₁⟩ := settles_below_hundred d hd
    obtain ⟨e₁, d₂, hmutated, he₁, hd₂⟩ := settles_mutateOnce hg he d₁ hd₁
    rw [mutateWithin, run_bind_of_ok hthrown, if_pos (by norm_num), run_bind_of_ok hmutated, hextra]
    exact ih he₁ hd₂

end Generator

/-! ## All runs -/

/-- Mutations stop on some continuation of the draws.  From each state that is reached there are numbers
of the unit interval on which the whole run is over, with the tree of that state if its chance is less
than 100, and else after the mutation that is forced; that one has a result when the generator is usable.
Then there are also numbers on which two strategies have a child. -/
theorem mutation_can_stop (g : Generators)
    (hg : ∀ h ∈ [g.buy, g.sell], h.settings.validate = .ok h.settings ∧
      h.settings.extraMutationPercent ≠ 100) :
    (∀ h ∈ [g.buy, g.sell], ∀ (percent : ℤ) (e : Expr) (d : Draws), d.InUnit →
      ∀ n p a d₁, h.Reaches percent e d n p a d₁ →
        ∃ d', d.Continue d₁.count d' ∧ ∀ rounds, n + 2 ≤ rounds →
          ((h.mutateWithin rounds percent e).run.run d').1 ≠ .error .endless ∧
          (p < 100 → ∃ d₂, (h.mutateWithin rounds percent e).run.run d' = (.ok a, d₂)) ∧
          ∀ k, h.Usable → e.HasKind k →
            ∃ e' d₂, (h.mutateWithin rounds percent e).run.run d' = (.ok e', d₂) ∧ e'.HasKind k) ∧
    ∀ settings : BreedingSettings, (∀ h ∈ [g.buy, g.sell], h.Usable) →
      settings.breedWeights ≠ [] → ¬settings.breedWeights.total ≤ 0.0 →
        settings.breedWeights.total.isFinite = true →
        ∀ (father mother : Strategy) (d : Draws), d.InUnit →
          ∃ d', d.Continue d.count d' ∧ ∃ child d₂,
            (Strategy.breed g settings father mother).run.run d' = (.ok child, d₂) := by
  have hextra : ∀ h ∈ [g.buy, g.sell], h.settings.extraMutationPercent < 100 := fun h hh =>
    lt_of_le_of_ne (BreedingSettings.extraMutationPercent_le (hg h hh).1) (hg h hh).2
  refine ⟨fun h hh percent e d hd n p a d₁ hreaches => ?_,
    fun settings husable hne htotal hfin father mother d hd => ?_⟩
  · have hcontinue := hd.continue d₁.count
    obtain ⟨d₁', hreaches', hcount⟩ := hreaches.exchange hcontinue.count hcontinue.before
    have hstopping : d₁'.IsStopping := hd.isStopping hreaches'.stream hcount.ge
    refine ⟨_, hcontinue, fun rounds hrounds => ?_⟩
    obtain ⟨more, rfl⟩ := Nat.exists_eq_add_of_le hrounds
    rw [Nat.add_assoc, hreaches'.run_eq, Nat.add_comm 2 more]
    refine ⟨Generator.mutateWithin_ne_endless (hextra h hh) hstopping p more a, fun hp => ?_,
      fun k husable he => ?_⟩
    · obtain ⟨r, d₂, hrun, rfl, -⟩ :=
        Generator.settles_mutateWithin_of_lt hp (more + 1) a d₁' hstopping
      exact ⟨d₂, hrun⟩
    · obtain ⟨r, d₂, hrun, hr, -⟩ := Generator.settles_mutateWithin husable (hextra h hh)
        (hreaches.hasKind husable.quotes he) p more d₁' hstopping
      exact ⟨r, d₂, hrun, hr⟩
  · have hstopping : (d.stopFrom d.count).IsStopping := hd.isStopping rfl le_rfl
    obtain ⟨child, d₂, hrun, -, -⟩ :=
      Strategy.settles_breed ⟨husable, hextra⟩ hne htotal hfin father mother _ hstopping
    exact ⟨_, hd.continue d.count, child, d₂, hrun⟩

/-- The default generators can mutate a truth value in any case, and breed from two strategies. -/
theorem mutation_can_stop_default :
    let g : Generators := ⟨{}, { allowHeld := true }⟩
    let tape := Draws.ofTape #[0.25, 0.75, 0.125]
    (∃ d', tape.Continue 0 d' ∧ ∃ e' d₂,
      (g.buy.mutate 100 (.truth true)).run.run d' = (.ok e', d₂) ∧ e'.HasKind .boolean) ∧
    ∃ father : Strategy, ∃ d', tape.Continue 0 d' ∧ ∃ child d₂,
      (Strategy.breed g {} father father).run.run d' = (.ok child, d₂) := by
  intro g tape
  have hg : ∀ h ∈ [g.buy, g.sell], h.settings.validate = .ok h.settings ∧
      h.settings.extraMutationPercent ≠ 100 := by
    simp only [List.forall_mem_cons]
    exact ⟨⟨rfl, by decide⟩, ⟨rfl, by decide⟩, fun h hh => by cases hh⟩
  have husable : ∀ h ∈ [g.buy, g.sell], h.Usable := by
    simp only [List.forall_mem_cons]
    exact ⟨Generator.usable_default false, Generator.usable_default true, fun h hh => by cases hh⟩
  have hunit : tape.InUnit := Draws.inUnit_ofTape (by decide +kernel)
  let father : Strategy :=
    { rules := ⟨.truth true, .truth false⟩, buy_boolean := rfl, sell_boolean := rfl }
  obtain ⟨hmutation, hbreeding⟩ := mutation_can_stop g hg
  constructor
  · obtain ⟨d', hcontinue, hruns⟩ :=
      hmutation g.buy List.mem_cons_self 100 (.truth true) tape hunit 0 _ _ _ .start
    obtain ⟨-, -, hresult⟩ := hruns Generator.mutationLimit (by decide)
    exact ⟨d', hcontinue, hresult .boolean (husable g.buy List.mem_cons_self) rfl⟩
  · exact ⟨father, hbreeding {} husable (by decide) (by decide +kernel) (by decide +kernel) father father
      tape hunit⟩

/-- Settings with a chance of 100 for each further mutation are accepted, and no tree that is mutated
with them is ever done; on some numbers there is no error either that would end the mutations. -/
theorem mutation_never_stops_at_hundred :
    let g : Generator := { settings := { extraMutationPercent := 100 } }
    g.settings.validate = .ok g.settings ∧
    (∀ (rounds : ℕ) (e : Expr) (d : Draws), d.InUnit →
      ∀ e' d', (g.mutateWithin rounds 100 e).run.run d ≠ (.ok e', d')) ∧
    ∃ d : Draws, d.InUnit ∧ ∀ rounds,
      ((g.mutateWithin rounds 100 (.truth true)).run.run d).1 = .error .endless := by
  intro g
  have hunit : (Draws.ofTape #[0.99]).InUnit := Draws.inUnit_ofTape (by decide +kernel)
  refine ⟨rfl, fun rounds e d hd e' d' => Generator.mutateWithin_ne_ok rfl rounds hd e e' d',
    (Draws.ofTape #[0.99]).stopFrom 0, (hunit.continue 0).unit, fun rounds => ?_⟩
  have husable : g.Usable := (Generator.usable_default false).withSettings (by decide +kernel)
  exact Generator.mutateWithin_eq_endless husable rfl rounds (k := .boolean) rfl
    (hunit.isStopping rfl (Nat.zero_le _))

end TradeRules
