import TradeRules.Proofs.Breeding.Ranking
import TradeRules.Proofs.Double.Number
import Mathlib.Data.List.Sort

/-!
# A number selects a strategy in proportion to the values

`Pool.select` takes the values away from a number, the least first, until it is used up.  For a pool of
positive finite values (`Pool.IsPositive`) there is always a strategy selected, and a larger number
selects no weaker one.  The walk stops at an entry or goes on with less (`reaching_cons`), and taking
a value away keeps the order of two numbers (`Double.sub_mono_left`).

When no value taken away is rounded (`SubtractsExactly`), each entry is selected by the numbers of an
interval as long as its value.  The interval is given by the sum of all values up to that of the entry
(`Pool.cumulated`), which does not mention the order that the pool is walked in.  That order is the
library's insertion sort (`Pool.sorted_eq`).
-/

namespace TradeRules

open Double (exact)

variable {x y v : Float} {s : Strategy} {e a : Float × Strategy}
  {es before after : List (Float × Strategy)} {p : Pool}

/-! ## Pools of positive values -/

namespace Pool

/-- Whether an entry has a strategy of its own value, which is positive and finite. -/
structure Valued (e : Float × Strategy) : Prop where
  own : e.2.value = some e.1
  finite : e.1.isFinite = true
  positive : 0.0 < e.1

/-- Whether all entries of a pool are of positive finite values, each of another one. -/
structure IsPositive (p : Pool) : Prop where
  valued : ∀ e ∈ p.entries, Valued e
  distinct : p.values.Pairwise fun x y => (x == y) = false

/-- The sum of the values of a pool that are at most a number. -/
def cumulated (p : Pool) (x : Float) : ℚ :=
  ((p.values.filter fun w => w ≤ x).map exact).sum

/-- The sum of all values of a pool. -/
def exactTotal (p : Pool) : ℚ :=
  (p.values.map exact).sum

/-- Whether a number lies in the interval of an entry. -/
structure Covers (p : Pool) (e : Float × Strategy) (x : Float) : Prop where
  above : p.cumulated e.1 - exact e.1 < exact x
  upTo : exact x ≤ p.cumulated e.1

end Pool

/-- Whether values are taken away from a number without rounding, as long as something is left. -/
def SubtractsExactly : Float → List Float → Prop
  | _, [] => True
  | x, w :: ws => exact (x - w) = exact x - exact w ∧ (0.0 < x - w → SubtractsExactly (x - w) ws)

namespace Pool

theorem Valued.exact_pos (h : Valued e) : 0 < exact e.1 := by
  have hpos := h.positive
  rwa [Double.lt_iff_exact Double.zero_exact.1 h.finite, Double.zero_exact.2] at hpos

theorem exact_sum_nonneg (hes : ∀ e ∈ es, Valued e) : 0 ≤ (es.map fun e => exact e.1).sum := by
  refine List.sum_nonneg fun q hq => ?_
  obtain ⟨e, he, rfl⟩ := List.mem_map.mp hq
  exact (hes e he).exact_pos.le

/-- The strategy tells its entry. -/
theorem Valued.eq (h : Valued e) (ha : Valued a) (hsame : e.2 = a.2) : e = a := by
  have hvalue := h.own
  rw [hsame, ha.own, Option.some_inj] at hvalue
  exact Prod.ext hvalue.symm hsame

/-! ## The order of the walk -/

/-- An entry is put where the library's insertion puts it. -/
theorem insertBackwards_eq (he : e.1.isFinite = true) (hes : ∀ a ∈ es, a.1.isFinite = true) :
    insertBackwards e es = es.orderedInsert (fun a b => exact b.1 ≤ exact a.1) e := by
  induction es with
  | nil => rfl
  | cons last rest ih =>
    have hlast := hes last List.mem_cons_self
    have hiff := Double.lt_iff_exact he hlast
    rw [insertBackwards, List.orderedInsert_cons, ih fun a ha => hes a (List.mem_cons_of_mem last ha)]
    by_cases hlt : e.1 < last.1
    · rw [if_pos hlt, if_neg (not_le.mpr (hiff.mp hlt))]
    · rw [if_neg hlt, if_pos (not_lt.mp fun h => hlt (hiff.mpr h))]

theorem sorted_eq (h : ∀ e ∈ p.entries, e.1.isFinite = true) :
    p.sorted = (p.entries.reverse.insertionSort fun a b => exact b.1 ≤ exact a.1).reverse := by
  have hfold : ∀ es : List (Float × Strategy), (∀ e ∈ es, e.1.isFinite = true) →
      es.foldr insertBackwards [] = es.insertionSort fun a b => exact b.1 ≤ exact a.1 := by
    intro es
    induction es with
    | nil => exact fun _ => rfl
    | cons e es ih =>
      intro hes
      have htail : ∀ a ∈ es, a.1.isFinite = true := fun a ha => hes a (List.mem_cons_of_mem e ha)
      rw [List.foldr_cons, List.insertionSort_cons, ih htail]
      exact insertBackwards_eq (hes e List.mem_cons_self) fun a ha =>
        htail a ((List.mem_insertionSort _).mp ha)
  rw [sorted, ← List.foldr_reverse, hfold _ fun e he => h e (List.mem_reverse.mp he)]

namespace IsPositive

theorem finite (hp : p.IsPositive) : ∀ e ∈ p.entries, e.1.isFinite = true := fun e he =>
  (hp.valued e he).finite

theorem numbers (hp : p.IsPositive) : p.Numbers := fun e he =>
  Double.isNaN_of_isFinite (hp.finite e he)

theorem sorted_perm (hp : p.IsPositive) : p.sorted.Perm p.entries := by
  rw [sorted_eq hp.finite]
  exact (List.reverse_perm _).trans ((List.perm_insertionSort _ _).trans (List.reverse_perm _))

theorem mem_sorted (hp : p.IsPositive) : e ∈ p.sorted ↔ e ∈ p.entries :=
  hp.sorted_perm.mem_iff

theorem valued_sorted (hp : p.IsPositive) : ∀ e ∈ p.sorted, Valued e := fun e he =>
  hp.valued e (hp.mem_sorted.mp he)

/-- The values of the walk increase. -/
theorem sorted_pairwise (hp : p.IsPositive) :
    p.sorted.Pairwise fun a b => exact a.1 < exact b.1 := by
  have hascending : p.sorted.Pairwise fun a b => exact a.1 ≤ exact b.1 := by
    have htotal : Std.Total fun a b : Float × Strategy => exact b.1 ≤ exact a.1 :=
      ⟨fun a b => le_total (exact b.1) (exact a.1)⟩
    have htrans : IsTrans (Float × Strategy) fun a b => exact b.1 ≤ exact a.1 :=
      ⟨fun a b c hab hbc => hbc.trans hab⟩
    rw [sorted_eq hp.finite, List.pairwise_reverse]
    exact List.pairwise_insertionSort _ _
  have hdistinct : p.sorted.Pairwise fun a b => exact a.1 ≠ exact b.1 := by
    have hentries : p.entries.Pairwise fun a b => exact a.1 ≠ exact b.1 := by
      refine List.Pairwise.imp_of_mem (fun {a b} ha hb hab heq => ?_)
        (List.pairwise_map.mp hp.distinct)
      rw [← Bool.not_eq_true, Double.beq_iff_exact (hp.finite a ha) (hp.finite b hb)] at hab
      exact hab heq
    exact (hp.sorted_perm.pairwise_iff fun {_ _} => Ne.symm).mpr hentries
  exact (hascending.and hdistinct).imp fun h => lt_of_le_of_ne h.1 h.2

/-- An entry stands in the walk between the lesser ones and the greater ones. -/
theorem exists_split (hp : p.IsPositive) (he : e ∈ p.entries) :
    ∃ before after, p.sorted = before ++ e :: after ∧ (∀ a ∈ before, exact a.1 < exact e.1) ∧
      ∀ a ∈ after, exact e.1 < exact a.1 := by
  obtain ⟨before, after, hsplit⟩ := List.append_of_mem (hp.mem_sorted.mpr he)
  have hpairwise := hp.sorted_pairwise
  rw [hsplit, List.pairwise_append, List.pairwise_cons] at hpairwise
  obtain ⟨-, ⟨hafter, -⟩, hbefore⟩ := hpairwise
  exact ⟨before, after, hsplit, fun a ha => hbefore a ha e List.mem_cons_self, hafter⟩

/-- The values up to that of an entry are those that the walk has met there. -/
theorem cumulated_eq (hp : p.IsPositive) (he : e ∈ p.entries)
    (hsplit : p.sorted = before ++ e :: after) :
    p.cumulated e.1 = (before.map fun a => exact a.1).sum + exact e.1 := by
  have hfinite : ∀ a ∈ p.sorted, a.1.isFinite = true := fun a ha => (hp.valued_sorted a ha).finite
  have hpairwise := hp.sorted_pairwise
  have hvalues : p.values.Perm (p.sorted.map Prod.fst) := (hp.sorted_perm.map Prod.fst).symm
  rw [cumulated, ((hvalues.filter _).map _).sum_eq, List.filter_map, List.map_map]
  rw [hsplit, List.pairwise_append, List.pairwise_cons] at hpairwise
  rw [hsplit] at hfinite
  obtain ⟨-, ⟨hafter, -⟩, hbefore⟩ := hpairwise
  have hmem : ∀ a ∈ before ++ e :: after, (a.1 ≤ e.1 ↔ exact a.1 ≤ exact e.1) := fun a ha =>
    Double.le_iff_exact (hfinite a ha) (hp.finite e he)
  have hkeep : before.filter ((fun w => decide (w ≤ e.1)) ∘ Prod.fst) = before :=
    List.filter_eq_self.mpr fun a ha => decide_eq_true
      ((hmem a (List.mem_append_left _ ha)).mpr (hbefore a ha e List.mem_cons_self).le)
  have hdrop : after.filter ((fun w => decide (w ≤ e.1)) ∘ Prod.fst) = [] :=
    List.filter_eq_nil_iff.mpr fun a ha hle => absurd (hafter a ha) (not_lt.mpr
      ((hmem a (List.mem_append_right _ (List.mem_cons_of_mem e ha))).mp (of_decide_eq_true hle)))
  have hself : ((fun w => decide (w ≤ e.1)) ∘ Prod.fst) e = true :=
    decide_eq_true ((hmem e (List.mem_append_right _ List.mem_cons_self)).mpr le_rfl)
  rw [hsplit, List.filter_append, hkeep, List.filter_cons_of_pos hself, hdrop, List.map_append,
    List.sum_append, List.map_singleton, List.sum_singleton]
  rfl

theorem exactTotal_eq (hp : p.IsPositive) :
    p.exactTotal = (p.sorted.map fun e => exact e.1).sum := by
  rw [exactTotal, values, List.map_map, (hp.sorted_perm.map _).sum_eq]
  rfl

end IsPositive

/-! ## One step of the walk -/

theorem reaching_cons (he : Valued e) : reaching x ((e :: es).map Prod.snd) =
    if x - e.1 ≤ 0.0 then some e.2 else reaching (x - e.1) (es.map Prod.snd) := by
  simp only [List.map_cons, reaching, he.own, Option.getD_some]

/-- Whenever a larger number is used up, a smaller one is used up no later. -/
theorem reaching_mono (hes : ∀ e ∈ es, Valued e)
    (hascending : es.Pairwise fun a b => exact a.1 < exact b.1) (hx : x.isFinite = true)
    (hy : y.isFinite = true) (hle : x ≤ y) (h : reaching y (es.map Prod.snd) = some s) :
    ∃ e ∈ es, ∃ a ∈ es, reaching x (es.map Prod.snd) = some e.2 ∧ a.2 = s ∧
      exact e.1 ≤ exact a.1 := by
  induction es generalizing x y with
  | nil => cases h
  | cons b es ih =>
    have hb := hes b List.mem_cons_self
    obtain ⟨hleast, hascending⟩ := List.pairwise_cons.mp hascending
    rw [reaching_cons hb]
    by_cases hstop : x - b.1 ≤ 0.0
    · rw [if_pos hstop]
      obtain ⟨a, ha, hs⟩ := List.mem_map.mp (mem_of_reaching h)
      refine ⟨b, List.mem_cons_self, a, ha, rfl, hs, ?_⟩
      rcases List.mem_cons.mp ha with rfl | ha
      · exact le_rfl
      · exact (hleast a ha).le
    · -- The larger number is not used up here either, and both walks go on.
      have hmono := Double.sub_mono_left hx hy (Double.isNaN_of_isFinite hb.finite) hle
      have hgo : ¬y - b.1 ≤ 0.0 := fun hy => hstop (Double.le_trans hmono hy)
      rw [if_neg hstop]
      rw [reaching_cons hb, if_neg hgo] at h
      obtain ⟨e, he, a, ha, hrest⟩ := ih (fun e he => hes e (List.mem_cons_of_mem b he)) hascending
        (Double.isFinite_sub_of_pos hx hb.finite hb.positive hstop)
        (Double.isFinite_sub_of_pos hy hb.finite hb.positive hgo) hmono h
      exact ⟨e, List.mem_cons_of_mem b he, a, List.mem_cons_of_mem b ha, hrest⟩

/-! ## The walk without rounding -/

/-- A value more than a number is taken away exactly, and the rest is positive. -/
theorem exact_step (he : Valued e) (hx : x.isFinite = true)
    (hexact : SubtractsExactly x ((e :: es).map Prod.fst)) (h : exact e.1 < exact x) :
    (x - e.1).isFinite = true ∧ exact (x - e.1) = exact x - exact e.1 ∧ ¬x - e.1 ≤ 0.0 ∧
      SubtractsExactly (x - e.1) (es.map Prod.fst) := by
  obtain ⟨hdiff, hrest⟩ := hexact
  have hgo : ¬x - e.1 ≤ 0.0 := by
    intro hle
    have hfinite : (x - e.1).isFinite = true := by
      refine (Double.sub_isRounding hx he.finite).isFinite_mono (q := exact x)
        (sub_nonneg.mpr h.le) (sub_le_self _ he.exact_pos.le) ?_
      rw [Double.nearest_exact]
      exact Double.inRange_exact x
    rw [Double.le_iff_exact hfinite Double.zero_exact.1, Double.zero_exact.2, hdiff] at hle
    linarith
  have hfinite := Double.isFinite_sub_of_pos hx he.finite he.positive hgo
  refine ⟨hfinite, hdiff, hgo, hrest ?_⟩
  rw [Double.lt_iff_exact Double.zero_exact.1 hfinite, Double.zero_exact.2, hdiff]
  exact sub_pos.mpr h

/-- A number in the interval of an entry is used up there. -/
theorem reaching_of_exact (hes : ∀ a ∈ before ++ e :: after, Valued a) (hx : x.isFinite = true)
    (hexact : SubtractsExactly x ((before ++ e :: after).map Prod.fst))
    (hlow : (before.map fun a => exact a.1).sum < exact x)
    (hhigh : exact x ≤ (before.map fun a => exact a.1).sum + exact e.1) :
    reaching x ((before ++ e :: after).map Prod.snd) = some e.2 := by
  induction before generalizing x with
  | nil =>
    have he := hes e List.mem_cons_self
    rw [List.map_nil, List.sum_nil, zero_add] at hhigh
    rw [List.nil_append, reaching_cons he, if_pos]
    exact Double.sub_le_zero_of_le hx he.finite ((Double.le_iff_exact hx he.finite).mpr hhigh)
  | cons b before ih =>
    rw [List.map_cons, List.sum_cons] at hlow hhigh
    have hb := hes b List.mem_cons_self
    have htail : ∀ a ∈ before ++ e :: after, Valued a := fun a ha =>
      hes a (List.mem_cons_of_mem b ha)
    have hnonneg := exact_sum_nonneg fun a ha => htail a (List.mem_append_left _ ha)
    obtain ⟨hfinite, hdiff, hgo, hrest⟩ := exact_step hb hx hexact (by linarith)
    rw [List.cons_append, reaching_cons hb, if_neg hgo]
    exact ih htail hfinite hrest (by rw [hdiff]; linarith) (by rw [hdiff]; linarith)

/-- A number beyond the sum of the values is not used up. -/
theorem reaching_of_exact_beyond (hes : ∀ a ∈ es, Valued a) (hx : x.isFinite = true)
    (hexact : SubtractsExactly x (es.map Prod.fst)) (h : (es.map fun a => exact a.1).sum < exact x) :
    reaching x (es.map Prod.snd) = none := by
  induction es generalizing x with
  | nil => rfl
  | cons b es ih =>
    rw [List.map_cons, List.sum_cons] at h
    have hb := hes b List.mem_cons_self
    have htail : ∀ a ∈ es, Valued a := fun a ha => hes a (List.mem_cons_of_mem b ha)
    have hnonneg := exact_sum_nonneg htail
    obtain ⟨hfinite, hdiff, hgo, hrest⟩ := exact_step hb hx hexact (by linarith)
    rw [reaching_cons hb, if_neg hgo]
    exact ih htail hfinite hrest (by rw [hdiff]; linarith)

/-- A positive number up to a sum lies in the interval of one summand. -/
theorem exists_interval {q : ℚ} (hpos : 0 < q) (hle : q ≤ (es.map fun a => exact a.1).sum) :
    ∃ before e after, es = before ++ e :: after ∧ (before.map fun a => exact a.1).sum < q ∧
      q ≤ (before.map fun a => exact a.1).sum + exact e.1 := by
  induction es generalizing q with
  | nil => exact absurd hle (not_le.mpr hpos)
  | cons b es ih =>
    rw [List.map_cons, List.sum_cons] at hle
    by_cases hstop : q ≤ exact b.1
    · exact ⟨[], b, es, rfl, hpos, by simpa using hstop⟩
    · obtain ⟨before, e, after, rfl, hlow, hhigh⟩ := ih (q := q - exact b.1)
        (sub_pos.mpr (not_le.mp hstop)) (by linarith)
      refine ⟨b :: before, e, after, rfl, ?_, ?_⟩ <;> rw [List.map_cons, List.sum_cons] <;> linarith

/-! ## Selection -/

namespace IsPositive

theorem le_iff (hp : p.IsPositive) (he : e ∈ p.entries) (ha : a ∈ p.entries) :
    e.1 ≤ a.1 ↔ exact e.1 ≤ exact a.1 :=
  Double.le_iff_exact (hp.finite e he) (hp.finite a ha)

/-- The fittest strategy is that of the greatest value. -/
theorem exists_fittest (hp : p.IsPositive) (hne : p.entries ≠ []) :
    ∃ e ∈ p.entries, p.fittest = some e.2 ∧ ∀ a ∈ p.entries, exact a.1 ≤ exact e.1 := by
  cases hfittest : p.fittest with
  | none => exact absurd (held_eq_empty.mp (fittest_eq_none.mp hfittest)) hne
  | some s =>
    obtain ⟨e, he, rfl, hgreatest⟩ := mem_of_fittest hp.numbers hfittest
    refine ⟨e, he, rfl, fun a ha => ?_⟩
    have hle := hgreatest _ (mem_held_of_mem ha)
    rwa [← Double.le_iff_extended (hp.numbers a ha) (hp.numbers e he), hp.le_iff ha he] at hle

/-- Entries of one value are one entry. -/
theorem eq_of_exact (hp : p.IsPositive) (he : e ∈ p.entries) (ha : a ∈ p.entries)
    (h : exact e.1 = exact a.1) : e = a := by
  obtain ⟨before, after, hsplit, hbefore, hafter⟩ := hp.exists_split ha
  have hmem := hp.mem_sorted.mpr he
  rw [hsplit, List.mem_append, List.mem_cons] at hmem
  rcases hmem with hmem | hmem | hmem
  · exact absurd h (hbefore e hmem).ne
  · exact hmem
  · exact absurd h (hafter e hmem).ne'

theorem exists_select (hp : p.IsPositive) (hne : p.entries ≠ []) :
    ∃ e ∈ p.entries, p.select x = some e.2 := by
  rw [select, ranked]
  cases hreach : reaching x (p.sorted.map Prod.snd) with
  | none =>
    obtain ⟨e, he, hfittest, -⟩ := hp.exists_fittest hne
    exact ⟨e, he, by rw [hfittest, Option.none_or]⟩
  | some s =>
    obtain ⟨e, he, rfl⟩ := List.mem_map.mp (mem_of_reaching hreach)
    exact ⟨e, hp.mem_sorted.mp he, rfl⟩

/-- A larger number selects no weaker strategy. -/
theorem select_mono (hp : p.IsPositive) (hx : x.isFinite = true) (hy : y.isFinite = true)
    (hle : x ≤ y) (he : e ∈ p.entries) (ha : a ∈ p.entries) (hxe : p.select x = some e.2)
    (hya : p.select y = some a.2) : e.1 ≤ a.1 := by
  rw [hp.le_iff he ha]
  cases hreach : reaching y (p.sorted.map Prod.snd) with
  | none =>
    obtain ⟨b, hb, hfittest, hgreatest⟩ := hp.exists_fittest (List.ne_nil_of_mem he)
    rw [select, ranked, hreach, Option.none_or, hfittest, Option.some_inj] at hya
    rw [← (hp.valued b hb).eq (hp.valued a ha) hya]
    exact hgreatest e he
  | some s =>
    obtain ⟨b, hb, c, hc, hxb, hsc, hbc⟩ :=
      reaching_mono hp.valued_sorted hp.sorted_pairwise hx hy hle hreach
    rw [select, ranked, hxb, Option.some_or, Option.some_inj] at hxe
    rw [select, ranked, hreach, Option.some_or, Option.some_inj, ← hsc] at hya
    rwa [(hp.valued_sorted b hb).eq (hp.valued e he) hxe,
      (hp.valued_sorted c hc).eq (hp.valued a ha) hya] at hbc

/-- A number up to the least value selects its strategy. -/
theorem select_of_le_weakest (hp : p.IsPositive) (hx : x.isFinite = true) (he : e ∈ p.entries)
    (hleast : ∀ a ∈ p.entries, e.1 ≤ a.1) (hle : x ≤ e.1) : p.select x = some e.2 := by
  obtain ⟨before, after, hsplit, hbefore, -⟩ := hp.exists_split he
  have hnil : before = [] := by
    refine List.eq_nil_iff_forall_not_mem.mpr fun a ha => ?_
    have hmem : a ∈ p.entries := hp.mem_sorted.mp (by rw [hsplit]; exact List.mem_append_left _ ha)
    exact absurd (hbefore a ha) (not_lt.mpr ((hp.le_iff he hmem).mp (hleast a hmem)))
  rw [select, ranked, hsplit, hnil, List.nil_append, reaching_cons (hp.valued e he),
    if_pos (Double.sub_le_zero_of_le hx (hp.finite e he) hle), Option.some_or]

/-- Without rounding a number selects the strategy of its interval. -/
theorem select_of_covers (hp : p.IsPositive) (hx : x.isFinite = true)
    (hexact : SubtractsExactly x (p.sorted.map Prod.fst)) (he : e ∈ p.entries) (h : p.Covers e x) :
    p.select x = some e.2 := by
  obtain ⟨before, after, hsplit, -, -⟩ := hp.exists_split he
  obtain ⟨habove, hupTo⟩ := h
  rw [hp.cumulated_eq he hsplit] at habove hupTo
  have hvalued := hp.valued_sorted
  rw [hsplit] at hexact hvalued
  rw [select, ranked, hsplit, reaching_of_exact hvalued hx hexact (by linarith) hupTo,
    Option.some_or]

theorem exists_covers (hp : p.IsPositive) (hpos : 0 < exact x) (hle : exact x ≤ p.exactTotal) :
    ∃ e ∈ p.entries, p.Covers e x := by
  rw [hp.exactTotal_eq] at hle
  obtain ⟨before, e, after, hsplit, hlow, hhigh⟩ := exists_interval hpos hle
  have he : e ∈ p.entries :=
    hp.mem_sorted.mp (by rw [hsplit]; exact List.mem_append_right _ List.mem_cons_self)
  refine ⟨e, he, ?_, ?_⟩ <;> rw [hp.cumulated_eq he hsplit] <;> linarith

/-- Without rounding a number beyond the total selects the fittest strategy. -/
theorem select_of_beyond (hp : p.IsPositive) (hx : x.isFinite = true)
    (hexact : SubtractsExactly x (p.sorted.map Prod.fst)) (h : p.exactTotal < exact x)
    (he : e ∈ p.entries) (hgreatest : ∀ a ∈ p.entries, a.1 ≤ e.1) : p.select x = some e.2 := by
  obtain ⟨b, hb, hfittest, hle⟩ := hp.exists_fittest (List.ne_nil_of_mem he)
  have hsame : b = e :=
    hp.eq_of_exact hb he (((hp.le_iff hb he).mp (hgreatest b hb)).antisymm (hle e he))
  rw [hp.exactTotal_eq] at h
  rw [select, ranked, reaching_of_exact_beyond hp.valued_sorted hx hexact h, Option.none_or,
    hfittest, hsame]

end IsPositive

/-- Strategies are selected in proportion to their values: some strategy always, none weaker for a
larger number, the weakest for a number up to its value, and without rounding the one of the interval
that the number lies in, or the fittest beyond all intervals. -/
theorem selection_is_proportional (hp : p.IsPositive) (hne : p.entries ≠ []) (hv : v.isFinite = true) :
    (∃ e ∈ p.entries, p.select v = some e.2) ∧
    (∀ v' e e', v'.isFinite = true → v ≤ v' → e ∈ p.entries → e' ∈ p.entries →
      p.select v = some e.2 → p.select v' = some e'.2 → e.1 ≤ e'.1) ∧
    (∀ e ∈ p.entries, (∀ a ∈ p.entries, e.1 ≤ a.1) → v ≤ e.1 → p.select v = some e.2) ∧
    (SubtractsExactly v (p.sorted.map Prod.fst) →
      (∀ e ∈ p.entries, p.Covers e v → p.select v = some e.2) ∧
      (0 < exact v → exact v ≤ p.exactTotal → ∃ e ∈ p.entries, p.Covers e v) ∧
      (p.exactTotal < exact v →
        ∀ e ∈ p.entries, (∀ a ∈ p.entries, a.1 ≤ e.1) → p.select v = some e.2)) := by
  refine ⟨hp.exists_select hne, ?_, ?_, fun hexact => ⟨?_, ?_, ?_⟩⟩
  · exact fun v' e e' hv' hle he he' hxe hye => hp.select_mono hv hv' hle he he' hxe hye
  · exact fun e he hleast hle => hp.select_of_le_weakest hv he hleast hle
  · exact fun e he hcovers => hp.select_of_covers hv hexact he hcovers
  · exact hp.exists_covers
  · exact fun hbeyond e he hgreatest => hp.select_of_beyond hv hexact hbeyond he hgreatest

/-- Of the values 11000, 12000 and 13000, a number just above the least selects the second. -/
theorem selection_is_proportional_above :
    ∃ p : Pool, p.values = [12000.0, 11000.0, 13000.0] ∧ p.IsPositive ∧
      ∃ e ∈ p.entries, e.1 = 12000.0 ∧ p.select 11000.5 = some e.2 := by
  let scored (value : Float) : Strategy :=
    { rules := ⟨.leaf (.truth true), .leaf (.truth false)⟩, value := some value,
      buy_boolean := rfl, sell_boolean := rfl }
  let p : Pool :=
    { maxSize := 3, entries := [12000.0, 11000.0, 13000.0].map fun value => (value, scored value) }
  have hp : p.IsPositive := by
    have hvalues : ∀ value ∈ [12000.0, 11000.0, 13000.0], value.isFinite = true ∧ 0.0 < value := by
      decide +kernel
    refine ⟨fun e he => ?_, by decide +kernel⟩
    obtain ⟨value, hvalue, rfl⟩ := List.mem_map.mp he
    exact ⟨rfl, (hvalues value hvalue).1, (hvalues value hvalue).2⟩
  have hsorted : p.sorted.map Prod.fst = [11000.0, 12000.0, 13000.0] := by decide +kernel
  have hexact : SubtractsExactly 11000.5 (p.sorted.map Prod.fst) := by
    rw [hsorted]
    exact ⟨by decide +kernel, fun _ => ⟨by decide +kernel, fun h => absurd h (by decide +kernel)⟩⟩
  have hselect := selection_is_proportional hp (List.cons_ne_nil _ _) (v := 11000.5) (by decide +kernel)
  refine ⟨p, rfl, hp, (12000.0, scored 12000.0), List.mem_cons_self, rfl, ?_⟩
  exact (hselect.2.2.2 hexact).1 _ List.mem_cons_self ⟨by decide +kernel, by decide +kernel⟩

end Pool

end TradeRules
