import Mathlib.Tactic.Common
import TradeRules.Breeding.Choice

/-!
# What random computations yield

`Draw.Yields m P` says that the computation `m` never fails for rules that are no strategy, and that each
of its results satisfies `P`, whatever numbers are drawn.  A computation is followed through its binds
(`Yields.bind`), and each random choice yields a member of what it chooses from.
-/

namespace TradeRules

/-- Whether an error says that rules do not make a strategy. -/
def BreedError.IsStrategy : BreedError → Prop
  | .strategy _ => True
  | _ => False

namespace Draw

variable {α β : Type} {P Q : α → Prop} {R : β → Prop}

/-- Whether all results of a computation have a property, and no failure is about a strategy. -/
def Yields (m : Draw α) (P : α → Prop) : Prop :=
  ∀ d, match (m.run.run d).1 with
    | .ok a => P a
    | .error e => ¬e.IsStrategy

/-- A result of a run has what the computation yields. -/
theorem Yields.ok {m : Draw α} (h : Yields m P) {d d' : Draws} {a : α}
    (hrun : m.run.run d = (.ok a, d')) : P a := by
  have hd := h d
  rw [hrun] at hd
  exact hd

/-- A run does not fail for rules that are no strategy. -/
theorem Yields.not_strategy {m : Draw α} (h : Yields m P) {d d' : Draws} {e : StrategyError} :
    m.run.run d ≠ (.error (.strategy e), d') := by
  intro hrun
  have hd := h d
  rw [hrun] at hd
  exact hd trivial

/-! ## Structure -/

theorem Yields.mono {m : Draw α} (h : Yields m P) (himp : ∀ a, P a → Q a) : Yields m Q := by
  intro d
  have hd := h d
  cases hrun : (m.run.run d).1 with
  | ok a =>
    rw [hrun] at hd
    exact himp a hd
  | error e =>
    rw [hrun] at hd
    exact hd

theorem Yields.pure {a : α} (h : P a) : Yields (pure a : Draw α) P :=
  fun _ => h

theorem Yields.throw {e : BreedError} (h : ¬e.IsStrategy) : Yields (throw e : Draw α) P :=
  fun _ => h

theorem run_bind (m : Draw α) (f : α → Draw β) (d : Draws) :
    (m >>= f).run.run d =
      match m.run.run d with
      | (.ok a, d') => (f a).run.run d'
      | (.error e, d') => (.error e, d') := by
  simp only [ExceptT.run_bind, StateT.run_bind]
  rcases m.run.run d with ⟨_ | _, _⟩ <;> rfl

theorem run_bind_of_ok {m : Draw α} {f : α → Draw β} {d d' : Draws} {a : α}
    (h : m.run.run d = (.ok a, d')) : (m >>= f).run.run d = (f a).run.run d' := by
  rw [run_bind, h]

theorem run_bind_of_error {m : Draw α} {f : α → Draw β} {d d' : Draws} {e : BreedError}
    (h : m.run.run d = (.error e, d')) : (m >>= f).run.run d = (.error e, d') := by
  rw [run_bind, h]

/-- A run of two computations with a result is a run of each. -/
theorem run_bind_eq_ok {m : Draw α} {f : α → Draw β} {d d' : Draws} {b : β}
    (h : (m >>= f).run.run d = (.ok b, d')) :
    ∃ a e, m.run.run d = (.ok a, e) ∧ (f a).run.run e = (.ok b, d') := by
  rw [run_bind] at h
  rcases hm : m.run.run d with ⟨r, e⟩
  rw [hm] at h
  cases r with
  | error _ => cases h
  | ok a => exact ⟨a, e, rfl, h⟩

/-- A run has a result and leaves some draws. -/
theorem exists_run_eq {m : Draw α} {d : Draws} {r : Except BreedError α}
    (h : (m.run.run d).1 = r) : ∃ d', m.run.run d = (r, d') := by
  subst h
  exact ⟨_, rfl⟩

/-- The rest of a computation may use what the first part yields. -/
theorem Yields.bind {m : Draw α} {f : α → Draw β} (hm : Yields m P)
    (hf : ∀ a, P a → Yields (f a) R) : Yields (m >>= f) R := by
  intro d
  have hd := hm d
  rw [run_bind]
  cases hrun : m.run.run d with
  | mk r d' =>
    rw [hrun] at hd
    cases r with
    | ok a => exact hf a hd d'
    | error e => exact hd

/-- A computation followed by one whatever it yields. -/
theorem Yields.then {m : Draw α} {f : α → Draw β} (hm : Yields m fun _ => True)
    (hf : ∀ a, Yields (f a) R) : Yields (m >>= f) R :=
  hm.bind fun a _ => hf a

/-- A choice between computations that both yield a property. -/
theorem Yields.ite {c : Prop} [Decidable c] {m m' : Draw α} (h : c → Yields m P)
    (h' : ¬c → Yields m' P) : Yields (if c then m else m') P := by
  split_ifs with hc
  · exact h hc
  · exact h' hc

/-- A computation that starts in one of two ways and goes on in one. -/
theorem Yields.iteBind {c : Prop} [Decidable c] {m m' : Draw α} {f : α → Draw β}
    (h : c → Yields m P) (h' : ¬c → Yields m' P) (hf : ∀ a, P a → Yields (f a) R) :
    Yields (if c then m >>= f else m' >>= f) R :=
  Yields.ite (fun hc => (h hc).bind hf) fun hc => (h' hc).bind hf

/-! ## Random choices -/

theorem yields_unit : Yields unit fun _ => True :=
  fun _ => trivial

theorem yields_built {r : Except BuildError α} (h : ∀ a, r = .ok a → P a) : Yields (built r) P := by
  intro d
  cases r with
  | ok a => exact h a rfl
  | error e => exact id

theorem yields_below (n : Nat) : Yields (below n) fun _ => True :=
  yields_unit.then fun _ => Yields.pure trivial

/-- A member of a list is picked. -/
theorem yields_pick (first : α) (rest : List α) : Yields (pick first rest) (· ∈ first :: rest) := by
  refine (yields_below _).then fun i => Yields.pure ?_
  cases hi : (first :: rest)[i]? with
  | some a => exact List.mem_of_getElem? hi
  | none =>
    rw [Option.getD_none, List.getLastD_eq_getLast?]
    cases hlast : rest.getLast? with
    | none => exact List.mem_cons_self
    | some a => exact List.mem_cons_of_mem _ (List.mem_of_getLast? hlast)

/-- The name at which a threshold is passed is the one given or one of the table. -/
theorem passing_mem (threshold sum : Float) (name : String) (table : WeightTable) :
    passing threshold sum name table ∈ name :: table.names := by
  induction table generalizing sum name with
  | nil => exact List.mem_cons_self
  | cons entry rest ih =>
    rw [passing]
    split_ifs
    · exact List.mem_cons_of_mem _ List.mem_cons_self
    · exact List.mem_cons_of_mem _ (ih _ _)

theorem yields_weighted (table : WeightTable) : Yields (weighted table) (· ∈ table.names) := by
  unfold weighted
  split
  · exact Yields.throw id
  · next name weight rest =>
    refine Yields.ite (fun _ => Yields.throw id) fun _ => Yields.ite (fun _ => Yields.throw id) fun _ => ?_
    refine yields_unit.then fun x => Yields.pure ?_
    have hmem := passing_mem (x * WeightTable.total ((name, weight) :: rest)) 0.0 name
      ((name, weight) :: rest)
    rcases List.mem_cons.mp hmem with h | h
    · rw [h]
      exact List.mem_cons_self
    · exact h

theorem mem_names_of_positive {table : WeightTable} {name : String}
    (h : name ∈ table.positive.names) : name ∈ table.names := by
  obtain ⟨entry, hentry, rfl⟩ := List.mem_map.mp h
  exact List.mem_map_of_mem (List.mem_filter.mp hentry).1

/-- A name of positive weight is chosen. -/
theorem yields_choose_positive (table : WeightTable) :
    Yields (choose table) (· ∈ table.positive.names) :=
  Yields.ite (fun _ => Yields.throw id) fun _ => yields_weighted _

/-- A name of the table is chosen. -/
theorem yields_choose (table : WeightTable) : Yields (choose table) (· ∈ table.names) :=
  (yields_choose_positive table).mono fun _ => mem_names_of_positive

end Draw

end TradeRules
