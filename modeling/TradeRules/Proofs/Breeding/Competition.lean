import TradeRules.Proofs.Breeding.Calls
import TradeRules.Proofs.Breeding.Ranking

/-!
# Competition

Scored strategies arrive one by one, and the pool of survivors never looks back.  It still keeps
exactly the best (`Programme.Keeps`): the largest of the distinct values that compete, as many as there is
room for, and of the strategies of a value the first of the least size.  The values that compete are
those above the capital, if that is a number.

A value that was refused or put out lies below all values of a full pool, and these only grow, so it
never has to come back.  `keeps_compete` says this of one arrival, and `keeps_play` of any calls, by
induction.

Since the largest members of a set are determined by it (`IsLargest.unique`), the order in which the
scores arrive does not matter to the values that are kept.
-/

namespace TradeRules

open Double (Extended extended)

/-! ## The best strategies -/

namespace Programme

variable {σ : Type} {p : Programme σ} {returned : List Strategy} {pool : Pool} {c : Strategy}
  {x : Float}

/-- Whether a pool keeps the best of the strategies that were returned. -/
structure Keeps (p : Programme σ) (returned : List Strategy) (pool : Pool) : Prop where
  /-- All strategies that were returned are scored. -/
  scored : ∀ c ∈ returned, ∃ x, c.value = some x ∧ x.isNaN = false
  /-- The pool has the size of the settings. -/
  room : pool.maxSize = p.settings.populationSize
  /-- Its values are the largest of those that are not at most the capital. -/
  largest : IsLargest p.settings.populationSize.toNat pool.held (contenders p.capital returned)
  /-- No value is held twice. -/
  nodup : (pool.values.map extended).Nodup
  /-- The strategy of a value is the first of the least size that was returned with it. -/
  first : ∀ entry ∈ pool.entries,
    entry.2.IsFirstSmallest (returned.filter (Strategy.hasValue entry.1))

namespace Keeps

/-- Each strategy stands under its own value. -/
theorem own (h : p.Keeps returned pool) {entry : Float × Strategy} (hentry : entry ∈ pool.entries) :
    ∃ value, entry.2.value = some value ∧ (value == entry.1) = true :=
  Strategy.hasValue_iff.mp (List.mem_filter.mp (h.first entry hentry).mem).2

theorem numbers (h : p.Keeps returned pool) : pool.Numbers := by
  intro entry hentry
  obtain ⟨value, -, heq⟩ := h.own hentry
  exact (Double.isNaN_of_beq heq).2

theorem card_held (h : p.Keeps returned pool) : pool.held.card = pool.size := by
  rw [Pool.held, List.toFinset_card_of_nodup h.nodup, List.length_map, Pool.values, List.length_map,
    Pool.size]

/-- The pool is never larger than the settings say. -/
theorem size_le (h : p.Keeps returned pool) : pool.size ≤ p.settings.populationSize.toNat := by
  have hcard := h.largest.card
  rw [← h.card_held]
  omega

/-- The values in the pool are not at most the capital. -/
theorem not_le (h : p.Keeps returned pool) {entry : Float × Strategy}
    (hentry : entry ∈ pool.entries) : ¬entry.1 ≤ p.capital := by
  obtain ⟨c, hc, y, hy, hgain, hext⟩ :=
    mem_distinctValues.mp (h.largest.subset (Pool.mem_held_of_mem hentry))
  obtain ⟨z, hz, hnan⟩ := h.scored c hc
  cases hy.symm.trans hz
  exact fun hle => hgain ((Double.le_congr_left hnan (h.numbers entry hentry) hext).mpr hle)

theorem scored_append (h : p.Keeps returned pool) (hc : c.value = some x) (hx : x.isNaN = false) :
    ∀ d ∈ returned ++ [c], ∃ y, d.value = some y ∧ y.isNaN = false := by
  intro d hd
  rcases List.mem_append.mp hd with hd | hd
  · exact h.scored d hd
  · exact ⟨x, List.mem_singleton.mp hd ▸ hc, hx⟩

/-- A strategy of another value does not matter to an entry. -/
theorem first_of_ne (h : p.Keeps returned pool) (hc : c.value = some x) {entry : Float × Strategy}
    (hentry : entry ∈ pool.entries) (hne : (x == entry.1) = false) :
    entry.2.IsFirstSmallest ((returned ++ [c]).filter (Strategy.hasValue entry.1)) := by
  rw [Strategy.filter_append_of_not_beq hc hne]
  exact h.first entry hentry

/-! ### One arrival -/

theorem largest_append_of_held (h : p.Keeps returned pool) (hc : c.value = some x)
    (hgain : ¬x ≤ p.capital) (hheld : extended x ∈ pool.held) :
    IsLargest p.settings.populationSize.toNat pool.held (contenders p.capital (returned ++ [c])) := by
  rw [contenders_append hc hgain, Finset.insert_eq_of_mem (h.largest.subset hheld)]
  exact h.largest

/-- Entries of one value are the same. -/
theorem entry_eq (h : p.Keeps returned pool) {e e' : Float × Strategy} (he : e ∈ pool.entries)
    (he' : e' ∈ pool.entries) (heq : extended e.1 = extended e'.1) : e = e' := by
  have hnodup := h.nodup
  rw [Pool.values, List.map_map] at hnodup
  exact List.inj_on_of_nodup_map hnodup he he' heq

/-- Of a value that is held the smaller strategy stays. -/
theorem again (h : p.Keeps returned pool) (hc : c.value = some x) (hx : x.isNaN = false)
    (hgain : ¬x ≤ p.capital) {other : Strategy} (hother : pool.get? x = some other) :
    p.Keeps (returned ++ [c]) (if c.size < other.size then pool.insert x c else pool) := by
  obtain ⟨old, hold, hbeq, rfl⟩ := Pool.mem_of_get? hother
  have hext := (Double.beq_iff_extended (h.numbers old hold) hx).mp hbeq
  have hheld : extended x ∈ pool.held := hext ▸ Pool.mem_held_of_mem hold
  have hcontains := (Pool.contains_iff h.numbers hx).mpr hheld
  -- Another entry of this value would be the same.
  have hsame : ∀ entry ∈ pool.entries, (x == entry.1) = true → entry = old := fun entry hentry heq =>
    h.entry_eq hentry hold
      (((Double.beq_iff_extended hx (h.numbers entry hentry)).mp heq).symm.trans hext.symm)
  have hsymm : ∀ entry ∈ pool.entries, (entry.1 == x) = (x == entry.1) := fun entry hentry => by
    rw [Bool.eq_iff_iff, Double.beq_iff_extended (h.numbers entry hentry) hx,
      Double.beq_iff_extended hx (h.numbers entry hentry), eq_comm]
  split_ifs with hsize
  · refine ⟨h.scored_append hc hx, Pool.maxSize_insert.trans h.room, ?_, ?_, fun entry hentry => ?_⟩
    · rw [Pool.held, Pool.values_insert_of_contains hcontains]
      exact h.largest_append_of_held hc hgain hheld
    · rw [Pool.values_insert_of_contains hcontains]
      exact h.nodup
    · rw [Pool.entries_insert_of_contains hcontains] at hentry
      obtain ⟨before, hbefore, rfl⟩ := List.mem_map.mp hentry
      rw [hsymm before hbefore]
      split_ifs with heq
      · rw [Strategy.filter_append_of_beq hc heq]
        obtain rfl := hsame before hbefore heq
        exact (h.first before hbefore).replace hsize
      · exact h.first_of_ne hc hbefore (Bool.eq_false_iff.mpr heq)
  · refine ⟨h.scored_append hc hx, h.room, h.largest_append_of_held hc hgain hheld, h.nodup,
      fun entry hentry => ?_⟩
    cases heq : x == entry.1 with
    | false => exact h.first_of_ne hc hentry heq
    | true =>
      rw [Strategy.filter_append_of_beq hc heq]
      obtain rfl := hsame entry hentry heq
      exact (h.first entry hentry).keep (not_lt.mp hsize)

/-- A new value joins what is left of the pool. -/
theorem join (h : p.Keeps returned pool) (hc : c.value = some x) (hx : x.isNaN = false)
    (hgain : ¬x ≤ p.capital) (hnew : extended x ∉ contenders p.capital returned) {left : Pool}
    (hroom : left.maxSize = pool.maxSize) (hsub : left.entries.Sublist pool.entries)
    (hlargest : IsLargest p.settings.populationSize.toNat (insert (extended x) left.held)
      (insert (extended x) (contenders p.capital returned))) :
    p.Keeps (returned ++ [c]) (left.insert x c) := by
  have hne : ∀ entry ∈ pool.entries, extended entry.1 ≠ extended x := fun entry hentry heq =>
    hnew (heq ▸ h.largest.subset (Pool.mem_held_of_mem hentry))
  have hnot : left.contains x = false := by
    simp only [Pool.contains, List.any_eq_false]
    intro entry hentry heq
    exact hne entry (hsub.subset hentry)
      ((Double.beq_iff_extended (h.numbers entry (hsub.subset hentry)) hx).mp heq)
  have hvalues := Pool.values_insert_of_not (s := c) hnot
  refine ⟨h.scored_append hc hx, ?_, ?_, ?_, fun entry hentry => ?_⟩
  · rw [Pool.maxSize_insert, hroom, h.room]
  · rw [contenders_append hc hgain, Pool.held, hvalues]
    simpa [Pool.held, Finset.union_comm] using hlargest
  · have hleft : (left.values.map extended).Nodup := h.nodup.sublist ((hsub.map _).map _)
    rw [hvalues, List.map_append, List.map_singleton]
    refine List.nodup_append.mpr ⟨hleft, List.nodup_singleton _, ?_⟩
    rintro v hv _ hw rfl
    rw [List.mem_singleton] at hw
    subst hw
    obtain ⟨y, hy, heq⟩ := List.mem_map.mp hv
    obtain ⟨entry, hentry, rfl⟩ := List.mem_map.mp hy
    exact hne entry (hsub.subset hentry) heq
  · rw [Pool.entries_insert_of_not hnot] at hentry
    rcases List.mem_append.mp hentry with hold | hlast
    · refine h.first_of_ne hc (hsub.subset hold) (Bool.eq_false_iff.mpr fun heq => ?_)
      exact hne entry (hsub.subset hold)
        ((Double.beq_iff_extended hx (h.numbers entry (hsub.subset hold))).mp heq).symm
    · rw [List.mem_singleton.mp hlast]
      exact isFirstSmallest_new hc hx hgain hnew

/-- The fittest strategy has the greatest of all values that compete. -/
theorem fittest (h : p.Keeps returned pool) {best : Strategy} (hbest : pool.fittest = some best) :
    best ∈ returned ∧ ∃ value, best.value = some value ∧ value.isNaN = false ∧
      IsGreatest (contenders p.capital returned : Set Extended) (extended value) := by
  obtain ⟨entry, hentry, rfl, hgreatest⟩ := Pool.mem_of_fittest h.numbers hbest
  obtain ⟨value, hvalue, heq⟩ := h.own hentry
  have hnan := (Double.isNaN_of_beq heq).1
  refine ⟨(List.mem_filter.mp (h.first entry hentry).mem).1, value, hvalue, hnan, ?_⟩
  rw [(Double.beq_iff_extended hnan (h.numbers entry hentry)).mp heq]
  exact h.largest.isGreatest (Pool.mem_held_of_mem hentry) hgreatest

theorem fittest_eq_none (h : p.Keeps returned pool) (hroom : 0 < p.settings.populationSize) :
    pool.fittest = none ↔ contenders p.capital returned = ∅ := by
  rw [Pool.fittest_eq_none]
  exact h.largest.eq_empty_iff (by omega)

end Keeps

end Programme

end TradeRules
