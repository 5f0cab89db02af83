import TradeRules.Breeding.Programme
import TradeRules.Proofs.Breeding.Names

/-!
# Runs of the programme

A programme reaches a stage by any order of new strategies, whether they are found or not, and new
generations (`Programme.Reaches`).  What holds of every candidate once it is accepted and scored holds of
all strategies in both pools: entering the competition puts in nothing else (`all_compete`), and a parent
is a member of its pool (`Pool.All.select`).

So the rules in the pools, and those of every candidate, have the names of their generators
(`Reaches.named`).
-/

namespace TradeRules

/-! ## Pools -/

namespace Pool

variable {p : Pool} {P : Strategy → Prop} {s : Strategy} {value : Float}

/-- Whether all strategies of a pool have a property. -/
def All (P : Strategy → Prop) (p : Pool) : Prop :=
  ∀ entry ∈ p.entries, P entry.2

theorem All.insert (h : p.All P) (hs : P s) : (p.insert value s).All P := by
  unfold Pool.insert
  split_ifs with hcontains
  · intro entry hentry
    obtain ⟨old, hold, rfl⟩ := List.mem_map.mp hentry
    split_ifs
    · exact hs
    · exact h old hold
  · intro entry hentry
    rcases List.mem_append.mp hentry with hold | hnew
    · exact h entry hold
    · rw [List.mem_singleton.mp hnew]
      exact hs

theorem All.erase (h : p.All P) : (p.erase value).All P :=
  fun entry hentry => h entry (List.mem_filter.mp hentry).1

theorem mem_insertBackwards {entry e : Float × Strategy} :
    ∀ {es : List (Float × Strategy)}, e ∈ insertBackwards entry es → e = entry ∨ e ∈ es
  | [], h => .inl (List.mem_singleton.mp h)
  | last :: rest, h => by
    unfold insertBackwards at h
    split_ifs at h
    · rcases List.mem_cons.mp h with rfl | h
      · exact .inr List.mem_cons_self
      · exact (mem_insertBackwards h).imp_right (List.mem_cons_of_mem last)
    · exact List.mem_cons.mp h

/-- Ordering a pool brings in no entries. -/
theorem mem_of_sorted {e : Float × Strategy} (h : e ∈ p.sorted) : e ∈ p.entries := by
  have hfold : ∀ es ordered : List (Float × Strategy),
      e ∈ es.foldl (fun ordered entry => insertBackwards entry ordered) ordered →
      e ∈ es ∨ e ∈ ordered := by
    intro es
    induction es with
    | nil => exact fun _ h => .inr h
    | cons entry es ih =>
      intro ordered h
      rcases ih _ h with hes | hordered
      · exact .inl (List.mem_cons_of_mem entry hes)
      · rcases mem_insertBackwards hordered with rfl | hold
        · exact .inl List.mem_cons_self
        · exact .inr hold
  rcases hfold _ _ (List.mem_reverse.mp h) with hes | hnil
  · exact hes
  · cases hnil

theorem mem_of_foremost {before : Float → Float → Bool} {es : List (Float × Strategy)}
    {e : Float × Strategy} (h : foremost before es = some e) : e ∈ es := by
  have hfold : ∀ (rest : List (Float × Strategy)) (best : Float × Strategy),
      rest.foldl (fun best entry => if before entry.1 best.1 then entry else best) best
        ∈ best :: rest := by
    intro rest
    induction rest with
    | nil => exact fun best => List.mem_cons_self
    | cons entry rest ih =>
      intro best
      rw [List.foldl_cons]
      split_ifs
      · exact List.mem_cons_of_mem best (ih entry)
      · rcases List.mem_cons.mp (ih best) with heq | hrest
        · rw [heq]
          exact List.mem_cons_self
        · exact List.mem_cons_of_mem best (List.mem_cons_of_mem entry hrest)
  cases es with
  | nil => cases h
  | cons first rest =>
    cases h
    exact hfold rest first

theorem mem_of_reaching {x : Float} {ss : List Strategy} (h : reaching x ss = some s) : s ∈ ss := by
  induction ss generalizing x with
  | nil => cases h
  | cons t ss ih =>
    unfold reaching at h
    dsimp only at h
    split_ifs at h
    · cases h
      exact List.mem_cons_self
    · exact List.mem_cons_of_mem t (ih h)

/-- A parent is a member of the pool. -/
theorem All.select (h : p.All P) {x : Float} (hs : p.select x = some s) : P s := by
  rcases Option.or_eq_some_iff.mp hs with hreaching | ⟨-, hfittest⟩
  · obtain ⟨entry, hentry, rfl⟩ := List.mem_map.mp (mem_of_reaching hreaching)
    exact h entry (mem_of_sorted hentry)
  · obtain ⟨entry, hentry, rfl⟩ := Option.map_eq_some_iff.mp hfittest
    exact h entry (mem_of_foremost hentry)

end Pool

/-- Whether all strategies of a stage have a property. -/
structure Stage.All {σ : Type} (P : Strategy → Prop) (s : Stage σ) : Prop where
  parents : s.parents.All P
  survivors : s.survivors.All P

namespace Programme

variable {σ : Type} {p : Programme σ} {s s' : Stage σ} {P : Strategy → Prop}

/-! ## Stages -/

/-- Whether a programme reaches a stage from another. -/
inductive Reaches (p : Programme σ) (s : Stage σ) : Stage σ → Prop where
  | refl : Reaches p s s
  | strategy {s' : Stage σ} : Reaches p s s' → Reaches p s (p.nextStrategy s').2
  | generation {s' : Stage σ} : Reaches p s s' → Reaches p s (nextGeneration s')

theorem all_compete {survivors : Pool} {c : Strategy} (h : survivors.All P) (hc : P c)
    (value : Float) : (p.compete survivors c value).All P := by
  unfold compete
  by_cases hloss : value ≤ p.capital
  · rw [if_pos hloss]
    exact h
  rw [if_neg hloss]
  cases survivors.get? value with
  | some other =>
    dsimp only
    split_ifs
    · exact h.insert hc
    · exact h
  | none =>
    cases survivors.weakestValue with
    | none =>
      dsimp only
      split_ifs
      · exact h.insert hc
      · exact h
    | some weakest =>
      dsimp only
      split_ifs
      · exact h.insert hc
      · exact h.erase.insert hc
      · exact h

/-- Whether what a candidate of any such stage becomes when it is scored has the property again. -/
def Breeds (p : Programme σ) (P : Strategy → Prop) : Prop :=
  ∀ s d c d', s.All P → (p.candidate s).run.run d = (.ok c, d') → p.accepts c = true →
    ∀ value, P (c.scored value)

/-- Attempts keep a property of all strategies. -/
theorem all_attempt (hp : p.Breeds P) (attempts : ℕ) (h : s.All P) :
    (p.attempt attempts s).2.All P := by
  induction attempts generalizing s with
  | zero => exact h
  | succ attempts ih =>
    unfold attempt
    rcases hrun : (p.candidate s).run.run s.draws with ⟨_ | c, draws⟩
    · exact ⟨h.parents, h.survivors⟩
    · dsimp only
      split_ifs with haccepts
      · rcases p.backtester c.rules s.testing with ⟨e | value, testing⟩
        · dsimp only
          split_ifs
          · exact ih ⟨h.parents, h.survivors⟩
          · exact ⟨h.parents, h.survivors⟩
        · exact ⟨h.parents, all_compete h.survivors (hp s _ c _ h hrun haccepts value) value⟩
      · exact ih ⟨h.parents, h.survivors⟩

/-- A property that breeding keeps holds at all stages that are reached. -/
theorem Reaches.all (hp : p.Breeds P) (h : s.All P) (hr : p.Reaches s s') : s'.All P := by
  induction hr with
  | refl => exact h
  | strategy _ ih => exact all_attempt hp _ ih
  | generation _ ih => exact ⟨ih.survivors, ih.survivors⟩

theorem all_start (p : Programme σ) (draws : Draws) (testing : σ) :
    (p.start draws testing).All P :=
  ⟨nofun, nofun⟩

/-! ## Names -/

/-- A candidate at a stage with named rules has named rules. -/
theorem named_of_candidate {d d' : Draws} {c : Strategy}
    (h : s.All fun t => t.rules.Named p.generators)
    (hrun : (p.candidate s).run.run d = (.ok c, d')) : c.rules.Named p.generators := by
  unfold candidate at hrun
  split_ifs at hrun
  · exact Strategy.named_of_random hrun
  · have hparent : Draw.Yields (parent s) fun found => ∀ t, found = some t →
        t.rules.Named p.generators :=
      Draw.yields_unit.then fun _ => Draw.Yields.pure fun _ ht => h.parents.select ht
    obtain ⟨mother, _, hmother, hrun⟩ := Draw.run_bind_eq_ok hrun
    obtain ⟨father, _, hfather, hrun⟩ := Draw.run_bind_eq_ok hrun
    split at hrun
    · exact Strategy.named_of_breed (hparent.ok hfather _ rfl) (hparent.ok hmother _ rfl) hrun
    · exact Strategy.named_of_random hrun

theorem breeds_named (p : Programme σ) : p.Breeds fun t => t.rules.Named p.generators :=
  fun _ _ c _ h hrun _ _ => (named_of_candidate h hrun : c.rules.Named p.generators)

/-- All strategies of the stages that a programme reaches have named rules. -/
theorem Reaches.named {draws : Draws} {testing : σ} (h : p.Reaches (p.start draws testing) s) :
    s.All fun t => t.rules.Named p.generators :=
  h.all p.breeds_named (all_start p draws testing)

end Programme

end TradeRules
