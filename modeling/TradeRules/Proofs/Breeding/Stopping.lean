import TradeRules.Proofs.Breeding.Depth
import TradeRules.Proofs.Breeding.Reads
import TradeRules.Proofs.Rule.Splicing

/-!
# Breeding on draws that stop the mutations

Mutations follow each other while a random number below 100 is less than a chance in percent.  When all
numbers still to come are 0.99, the random number is 99, and the mutations stop unless the chance is 100.
Such draws are *stopping* (`Draws.IsStopping`), and any draws can go on that way (`Draws.stopFrom`).

`Draw.Settles m P` says that on stopping draws the computation `m` has a result that satisfies `P`, and
leaves stopping draws.  What cannot fail and reads the stream in order settles (`settles_of_ends`).  The
rest has to be followed, since on other draws it may fail: a tree made after another one does not branch
on stopping draws, unless it is BOOLEAN, and so no number is moved out of range.  A mutation settles when
each choice has a known name of positive weight (`Generator.Usable`), and so does a cross.
-/

namespace TradeRules

open Draw

/-! ## Draws -/

namespace Draws

/-- A number that gives 99 of 100. -/
def stop : Float :=
  0.99

/-- Whether all numbers still to come give 99 of 100. -/
structure IsStopping (d : Draws) : Prop where
  unit : d.InUnit
  stop : ∀ i, d.count ≤ i → d.stream i = stop

/-- The draws that go on with 99 of 100 from an index on. -/
def stopFrom (d : Draws) (n : ℕ) : Draws :=
  { d with stream := fun i => if i < n then d.stream i else stop }

/-- Whether draws are others up to an index, and go on with numbers of the unit interval. -/
structure Continue (d : Draws) (n : ℕ) (d' : Draws) : Prop where
  unit : d'.InUnit
  count : d'.count = d.count
  before : ∀ i < n, d'.stream i = d.stream i

variable {d d' : Draws} {n : ℕ}

theorem stop_unit : 0.0 ≤ stop ∧ stop < 1.0 := by
  decide +kernel

theorem InUnit.continue (h : d.InUnit) (n : ℕ) : d.Continue n (d.stopFrom n) where
  unit i := by
    show 0.0 ≤ (if i < n then d.stream i else stop) ∧ (if i < n then d.stream i else stop) < 1.0
    split_ifs
    · exact h i
    · exact stop_unit
  count := rfl
  before _ hi := if_pos hi

theorem InUnit.isStopping (h : d.InUnit) (hstream : d'.stream = (d.stopFrom n).stream)
    (hn : n ≤ d'.count) : d'.IsStopping where
  unit i := by
    rw [hstream]
    exact (h.continue n).unit i
  stop i hi := by
    rw [hstream]
    exact if_neg (Nat.not_lt.mpr (hn.trans hi))

end Draws

namespace Draw

variable {α β : Type} {E : BreedError → Prop} {P Q : α → Prop} {R : β → Prop} {m : Draw α}
  {r : Except BreedError α} {d d' : Draws}

/-- Whether a computation has a result with a property on all stopping draws, and leaves such draws. -/
def Settles (m : Draw α) (P : α → Prop) : Prop :=
  ∀ d, d.IsStopping → ∃ a d', m.run.run d = (.ok a, d') ∧ P a ∧ d'.IsStopping

/-- A computation that reads the stream in order leaves stopping draws. -/
theorem Reads.isStopping (h : Reads m) (hd : d.IsStopping) (hrun : m.run.run d = (r, d')) :
    d'.IsStopping where
  unit i := by
    rw [h.stream_eq hrun]
    exact hd.unit i
  stop i hi := by
    rw [h.stream_eq hrun]
    exact hd.stop i ((h.count_le hrun).trans hi)

/-- What cannot fail on any numbers does not fail on stopping draws. -/
theorem settles_of_ends (hends : Ends E m P) (hE : ∀ e, ¬E e) (hreads : Reads m) : Settles m P := by
  intro d hd
  obtain ⟨a, d', hrun, ha⟩ := hends.exists_ok hE hd.unit
  exact ⟨a, d', hrun, ha, hreads.isStopping hd hrun⟩

theorem Settles.mono (h : Settles m P) (himp : ∀ a, P a → Q a) : Settles m Q := fun d hd => by
  obtain ⟨a, d', hrun, ha, hd'⟩ := h d hd
  exact ⟨a, d', hrun, himp a ha, hd'⟩

/-- A result has what every result has. -/
theorem Settles.yields (h : Settles m P) (hy : Yields m Q) : Settles m Q := fun d hd => by
  obtain ⟨a, d', hrun, -, hd'⟩ := h d hd
  exact ⟨a, d', hrun, hy.ok hrun, hd'⟩

theorem Settles.pure {a : α} (h : P a) : Settles (pure a : Draw α) P :=
  fun d hd => ⟨a, d, rfl, h, hd⟩

theorem Settles.bind {f : α → Draw β} (hm : Settles m P) (hf : ∀ a, P a → Settles (f a) R) :
    Settles (m >>= f) R := by
  intro d hd
  obtain ⟨a, d₁, hrun, ha, hd₁⟩ := hm d hd
  obtain ⟨b, d₂, hrun', hb, hd₂⟩ := hf a ha d₁ hd₁
  exact ⟨b, d₂, (run_bind_of_ok hrun).trans hrun', hb, hd₂⟩

theorem Settles.ite {c : Prop} [Decidable c] {m m' : Draw α} (h : c → Settles m P)
    (h' : ¬c → Settles m' P) : Settles (if c then m else m') P := by
  split_ifs with hc
  · exact h hc
  · exact h' hc

theorem Settles.iteBind {c : Prop} [Decidable c] {m m' : Draw α} {f : α → Draw β}
    (h : c → Settles m P) (h' : ¬c → Settles m' P) (hf : ∀ a, P a → Settles (f a) R) :
    Settles (if c then m >>= f else m' >>= f) R :=
  Settles.ite (fun hc => (h hc).bind hf) fun hc => (h' hc).bind hf

theorem settles_unit : Settles unit (· = Draws.stop) := fun d hd =>
  ⟨_, _, rfl, hd.stop d.count le_rfl, reads_unit.isStopping hd rfl⟩

theorem settles_built {r : Except BuildError α} {a : α} (h : r = .ok a) :
    Settles (built r) (· = a) := by
  rw [h]
  exact Settles.pure rfl

/-- The random number of a round. -/
theorem settles_below_hundred : Settles (below 100) (· = 99) := by
  refine settles_unit.bind fun x hx => Settles.pure ?_
  rw [hx]
  decide +kernel

theorem settles_pick (first : α) (rest : List α) : Settles (pick first rest) (· ∈ first :: rest) :=
  (settles_of_ends (ends_pick first rest) (fun _ h => h) (reads_pick first rest)).yields
    (yields_pick first rest)

theorem settles_weighted {table : WeightTable} (hne : table ≠ []) (htotal : ¬table.total ≤ 0.0)
    (hfin : table.total.isFinite = true) : Settles (weighted table) fun _ => True := by
  obtain ⟨chosen, heq⟩ := exists_weighted_eq hne htotal hfin
  rw [heq]
  exact settles_unit.bind fun _ _ => Settles.pure trivial

end Draw

/-! ## Mutations -/

/-- Whether a generator has a known name for every choice, of positive weight, and no other name of
positive weight, and can choose some mutation. -/
structure Generator.Usable (g : Generator) : Prop where
  quotes : g.KnowsQuotes
  choose : g.CanChoose
  names : g.KnowsNames
  mutations : g.settings.mutationWeights.CanGive fun _ => True

namespace Generator

variable {g : Generator} {e a r : Expr} {j k kind : Kind} {path : Path}

theorem usable_default (held : Bool) : ({ allowHeld := held } : Generator).Usable where
  quotes := by
    unfold KnowsQuotes
    cases held <;> decide +kernel
  choose := by cases held <;> decide +kernel
  names :=
    { integerLeaf := by cases held <;> decide +kernel
      field := by cases held <;> decide +kernel
      booleanOperation := by cases held <;> decide +kernel
      numericOperation := fun kind => by cases held <;> cases kind <;> decide +kernel }
  mutations := by cases held <;> decide +kernel

/-- The settings matter only for what mutations there are. -/
theorem Usable.withSettings (hg : g.Usable) {settings : BreedingSettings}
    (h : settings.mutationWeights.CanGive fun _ => True) : ({ g with settings := settings }).Usable :=
  ⟨hg.quotes, ⟨hg.choose.1, hg.choose.2, hg.choose.3, hg.choose.4, hg.choose.5⟩,
    ⟨hg.names.1, hg.names.2, hg.names.3, hg.names.4⟩, h⟩

/-- What fails only for unknown names settles. -/
theorem Usable.settles (hg : g.Usable) {α : Type} {m : Draw α} {P : α → Prop}
    (hends : Ends g.Unknown m P) (hreads : Reads m) : Settles m P :=
  settles_of_ends hends hg.names.not_unknown hreads

theorem settles_pickSite {sites : List (Path × Expr)} (hne : sites ≠ []) :
    Settles (pickSite sites) fun found => ∃ s ∈ sites, found = some s := by
  cases sites with
  | nil => exact absurd rfl hne
  | cons site rest => exact (settles_pick site rest).bind fun s hs => Settles.pure ⟨s, hs, rfl⟩

theorem settles_site (e : Expr) : Settles (site e) fun s => e.at? s.1 = some s.2 := by
  have hroot : e.sites ≠ [] :=
    List.ne_nil_of_mem (Expr.mem_sites_iff.mpr (show e.at? [] = some e from rfl))
  refine (settles_pickSite hroot).bind fun found hfound => ?_
  obtain ⟨s, hs, rfl⟩ := hfound
  exact Settles.pure (Expr.at?_of_mem_sites hs)

/-- A site of a kind in a well-typed tree, if there is one. -/
theorem settles_siteOf (hr : r.HasKind k) (kind : Kind) :
    Settles (siteOf kind r) fun found => ∀ s, found = some s → s.2.HasKind kind := by
  have hsettles : Settles (siteOf kind r) fun _ => True := by
    refine (settles_built (hr.sitesOf_eq kind)).bind fun sites _ => ?_
    cases sites with
    | nil => exact Settles.pure trivial
    | cons site rest => exact (settles_pick site rest).bind fun _ _ => Settles.pure trivial
  exact hsettles.yields (yields_siteOf hr kind)

/-- Below level 1 a tree may not branch, and does not on stopping draws. -/
theorem settles_branches : Settles (branches 1) (· = false) := by
  unfold branches
  rw [if_neg (by norm_num)]
  refine settles_unit.bind fun x hx => Settles.pure ?_
  rw [hx]
  decide +kernel

/-- A BOOLEAN tree made after a well-typed model takes over operands that declare their kinds. -/
theorem settles_branchWith_boolean (hg : g.Usable) (ha : a.HasKind k) (room : ℕ) (level : ℤ) :
    Settles (g.branchWith .boolean (some a) (g.operandsAt room level)) fun _ => True := by
  unfold branchWith
  rw [if_pos rfl]
  have hreads := reads_operandsAt g room level
  have hgrows := growsTo_operandsAt hg.choose room level
  cases hgrow : g.operandsAt room level with
  | none =>
    exact hg.settles ((ends_leafComparison hg.choose).mono fun _ _ => trivial) (reads_leafComparison g)
  | some f =>
    have hfeeds : Supply.Feeds g (fun b => ∃ k, b.declaredKind = .ok k) ⟨some a, f⟩ := by
      refine ⟨?_, fun kind => (hgrows f hgrow kind).mono fun _ => Expr.Grown.kind, fun _ h => h⟩
      rintro _ ⟨⟩ b hb
      exact (ha.of_mem_operands hb).imp fun _ => Expr.HasKind.declaredKind
    have hends : Ends g.Unknown (g.booleanNode ⟨some a, f⟩) fun _ => True :=
      ends_booleanNode_of hg.choose hfeeds (fun _ _ => trivial) fun _ _ _ _ _ _ => trivial
    exact hg.settles hends (reads_booleanNode (hreads f hgrow))

/-- A tree made after a well-typed one. -/
theorem settles_tree (hg : g.Usable) (ha : a.HasKind k) :
    Settles (g.tree kind 1 (some a)) (·.HasKind kind) := by
  have hsettles : Settles (g.tree kind 1 (some a)) fun _ => True := by
    refine settles_branches.bind fun branches hbranches => ?_
    subst hbranches
    refine Settles.ite (fun hkind => ?_) fun _ => ?_
    · obtain rfl : kind = .boolean := by simpa using hkind
      exact settles_branchWith_boolean hg ha _ _
    · exact hg.settles ((ends_leaf hg.choose kind).mono fun _ _ => trivial) (reads_leaf g kind)
  refine hsettles.yields (yields_tree hg.quotes 1 ?_)
  rintro m ⟨⟩
  exact ⟨k, ha⟩

theorem settles_modifyAt (hg : g.Usable) (he : e.HasKind k) (hat : e.at? path = some a) :
    Settles (g.modifyAt e path a) (·.HasKind k) := by
  obtain ⟨j, ha⟩ := he.at? path hat
  have hsettles : Settles (g.modifyAt e path a) fun _ => True := by
    refine Settles.ite (fun _ => ?_) fun _ => ?_
    · exact (hg.settles ends_smoothing reads_smoothing).bind fun _ _ => Settles.pure trivial
    · exact (settles_built ha.declaredKind).bind fun kind _ =>
        (settles_tree hg ha).bind fun _ _ => Settles.pure trivial
  exact hsettles.yields (yields_modifyAt hg.quotes he hat)

theorem settles_deleteAt (hg : g.Usable) (he : e.HasKind k) (hat : e.at? path = some a) :
    Settles (g.deleteAt e path a) (·.HasKind k) := by
  obtain ⟨j, ha⟩ := he.at? path hat
  have hsettles : Settles (g.deleteAt e path a) fun _ => True := by
    refine Settles.ite (fun _ => (settles_modifyAt hg he hat).mono fun _ _ => trivial) fun _ => ?_
    refine (settles_built ha.declaredKind).bind fun kind _ => ?_
    exact (hg.settles (ends_leaf hg.choose kind) (reads_leaf g kind)).bind fun _ _ =>
      Settles.pure trivial
  exact hsettles.yields (yields_deleteAt hg.quotes he hat)

theorem settles_slots (hr : r.HasKind j) (kind : Kind) : Settles (slots kind r) fun _ => True := by
  have hdeclared : ∀ b ∈ r.operands, ∃ k, b.declaredKind = .ok k := fun b hb =>
    (hr.of_mem_operands hb).imp fun _ => Expr.HasKind.declaredKind
  obtain ⟨kinds, hkinds⟩ := exists_mapM_eq_ok hdeclared
  exact (settles_built hkinds).bind fun _ _ => Settles.pure trivial

theorem settles_wrap (hg : g.Usable) (a : Expr) (kind : Kind) (level : ℤ) (attempts : ℕ) :
    Settles (g.wrap a kind level attempts) fun _ => True := by
  induction attempts with
  | zero => exact Settles.pure trivial
  | succ attempts ih =>
    have hbranch : Settles (g.branch kind level none) (·.HasKind kind) :=
      (hg.settles (ends_branch hg.choose kind level) (reads_branch g kind level none)).yields
        (yields_branch hg.quotes level fun _ h => by cases h)
    refine hbranch.bind fun wrapper hwrapper => ?_
    refine (settles_slots hwrapper kind).bind fun is _ => ?_
    cases is with
    | nil => exact ih
    | cons slot rest => exact (settles_pick slot rest).bind fun _ _ => Settles.pure trivial

theorem settles_insertAt (hg : g.Usable) (he : e.HasKind k) (hat : e.at? path = some a) :
    Settles (g.insertAt e path a) (·.HasKind k) := by
  obtain ⟨j, ha⟩ := he.at? path hat
  have hsettles : Settles (g.insertAt e path a) fun _ => True := by
    refine (settles_built ha.declaredKind).bind fun kind _ => ?_
    refine (settles_wrap hg a kind _ _).bind fun found _ => ?_
    cases found with
    | none => exact (settles_modifyAt hg he hat).mono fun _ _ => trivial
    | some r => exact Settles.pure trivial
  exact hsettles.yields (yields_insertAt hg.quotes he hat)

theorem settles_mutateOnce (hg : g.Usable) (he : e.HasKind k) :
    Settles (g.mutateOnce e) (·.HasKind k) := by
  have hchoose : Settles (choose g.settings.mutationWeights) fun _ => True :=
    settles_of_ends ((ends_choose (E := fun _ => False) hg.mutations).mono fun _ _ => trivial)
      (fun _ h => h) (reads_choose _)
  refine hchoose.bind fun name _ => ?_
  split
  · exact (settles_site e).bind fun s hs => settles_insertAt hg he hs
  · exact (settles_site e).bind fun s hs => settles_deleteAt hg he hs
  · exact (settles_site e).bind fun s hs => settles_modifyAt hg he hs

/-! ## Rounds -/

/-- On stopping draws there is no mutation, unless its chance is 100. -/
theorem settles_mutateWithin_of_lt {percent : ℤ} (hpercent : percent < 100) (rounds : ℕ) (e : Expr) :
    Settles (g.mutateWithin (rounds + 1) percent e) (· = e) := by
  refine settles_below_hundred.bind fun i hi => ?_
  rw [hi, if_neg (by omega)]
  exact Settles.pure rfl

/-- And then there is only that one. -/
theorem settles_mutateWithin (hg : g.Usable) (hextra : g.settings.extraMutationPercent < 100)
    (he : e.HasKind k) (percent : ℤ) (rounds : ℕ) :
    Settles (g.mutateWithin (rounds + 2) percent e) (·.HasKind k) := by
  refine settles_below_hundred.bind fun i hi => Settles.ite (fun _ => ?_) fun _ => Settles.pure he
  refine (settles_mutateOnce hg he).bind fun e' he' => ?_
  refine (settles_mutateWithin_of_lt hextra rounds e').mono fun r hr => ?_
  rw [hr]
  exact he'

/-- Whatever the tables are, the rounds are over after at most two. -/
theorem mutateWithin_ne_endless (hextra : g.settings.extraMutationPercent < 100) {d : Draws}
    (hd : d.IsStopping) (percent : ℤ) (rounds : ℕ) (e : Expr) :
    ((g.mutateWithin (rounds + 2) percent e).run.run d).1 ≠ .error .endless := by
  obtain ⟨i, d₁, hrun, hi, hd₁⟩ := settles_below_hundred d hd
  rw [mutateWithin, run_bind_of_ok hrun]
  split_ifs
  · rcases hmutated : (g.mutateOnce e).run.run d₁ with ⟨error | e', d₂⟩
    · rw [run_bind_of_error hmutated]
      exact (reads_mutateOnce g e).ne_endless hmutated
    · have hd₂ := (reads_mutateOnce g e).isStopping hd₁ hmutated
      obtain ⟨r, d₃, hdone, -, -⟩ := settles_mutateWithin_of_lt hextra rounds e' d₂ hd₂
      rw [run_bind_of_ok hmutated, hdone]
      nofun
  · nofun

/-! ## Crosses -/

theorem settles_mutate (hg : g.Usable) (hextra : g.settings.extraMutationPercent < 100)
    (he : e.HasKind k) (percent : ℤ) : Settles (g.mutate percent e) (·.HasKind k) :=
  settles_mutateWithin hg hextra he percent (mutationLimit - 2)

theorem settles_recombine (he : e.HasKind k) (hr : r.HasKind j) :
    Settles (recombine e r) (·.HasKind k) := by
  have hsettles : Settles (recombine e r) fun _ => True := by
    refine (settles_site e).bind fun s hs => ?_
    obtain ⟨l, hl⟩ := he.at? s.1 hs
    refine (settles_built hl.declaredKind).bind fun kind _ => ?_
    refine (settles_siteOf hr kind).bind fun found _ => ?_
    cases found with
    | none => exact Settles.pure trivial
    | some b => exact Settles.pure trivial
  exact hsettles.yields (yields_recombine he hr)

end Generator

/-- Whether both generators are usable, and further mutations are not forced. -/
structure Generators.CanStop (g : Generators) : Prop where
  usable : ∀ h ∈ [g.buy, g.sell], h.Usable
  extra : ∀ h ∈ [g.buy, g.sell], h.settings.extraMutationPercent < 100

namespace Strategy

variable {g : Generators} {r : Rules} {e : Expr} {k : Kind}

/-- A rule mutated by one of the generators. -/
theorem settles_mutate (hg : g.CanStop) {h : Generator} (hh : h ∈ [g.buy, g.sell])
    (he : e.HasKind k) (percent : ℤ) : Settles (h.mutate percent e) (·.HasKind k) :=
  Generator.settles_mutate (hg.usable h hh) (hg.extra h hh) he percent

theorem settles_ofRules (h : r.AreBoolean) : Settles (ofRules r) fun _ => True := by
  obtain ⟨buy, hbuy, hbuyKind⟩ := h.buy.simplify
  obtain ⟨sell, hsell, hsellKind⟩ := h.sell.simplify
  obtain ⟨s, hs⟩ := make_eq_ok (r := ⟨buy, sell⟩) ⟨hbuyKind, hsellKind⟩
  refine (settles_built hbuy).bind fun _ hb => (settles_built hsell).bind fun _ hs' => ?_
  rw [hb, hs', hs]
  exact Settles.pure trivial

theorem settles_forceMutation (hg : g.CanStop) (h : r.AreBoolean) :
    Settles (forceMutation g r) Rules.AreBoolean := by
  have hbelow : Settles (below 3) fun _ => True := settles_unit.bind fun _ _ => Settles.pure trivial
  refine hbelow.bind fun which _ => ?_
  refine Settles.iteBind (P := (Expr.HasKind · .boolean))
    (fun _ => settles_mutate hg List.mem_cons_self h.buy 100) (fun _ => Settles.pure h.buy)
    fun buy hbuy => ?_
  exact Settles.iteBind (P := (Expr.HasKind · .boolean))
    (fun _ => settles_mutate hg (List.mem_cons_of_mem _ List.mem_cons_self) h.sell 100)
    (fun _ => Settles.pure h.sell) fun sell hsell => Settles.pure ⟨hbuy, hsell⟩

theorem settles_mayMutate (hg : g.CanStop) (h : r.AreBoolean) :
    Settles (mayMutate g r) Rules.AreBoolean :=
  (settles_mutate hg List.mem_cons_self h.buy _).bind fun _ ha =>
    (settles_mutate hg (List.mem_cons_of_mem _ List.mem_cons_self) h.sell _).bind fun _ hb =>
      Settles.pure ⟨ha, hb⟩

theorem settles_crossed (hg : g.CanStop) (father mother : Strategy) (c : Cross) :
    Settles (crossed g father mother c) Rules.AreBoolean := by
  have hstart : (if c.swapsSell then mother.rules.sell else father.rules.sell).HasKind .boolean := by
    split_ifs
    · exact mother.sell_boolean
    · exact father.sell_boolean
  refine Settles.iteBind (P := (Expr.HasKind · .boolean))
    (fun _ => Generator.settles_recombine father.buy_boolean mother.buy_boolean)
    (fun _ => Settles.pure father.buy_boolean) fun buy hbuy => ?_
  refine Settles.iteBind (P := (Expr.HasKind · .boolean))
    (fun _ => Generator.settles_recombine hstart mother.sell_boolean)
    (fun _ => Settles.pure hstart) fun sell hsell => ?_
  exact Settles.ite (fun _ => settles_forceMutation hg ⟨hbuy, hsell⟩)
    fun _ => settles_mayMutate hg ⟨hbuy, hsell⟩

/-- A child is bred when the ways to breed have weights to choose by. -/
theorem settles_breed (hg : g.CanStop) {settings : BreedingSettings}
    (hne : settings.breedWeights ≠ []) (htotal : ¬settings.breedWeights.total ≤ 0.0)
    (hfin : settings.breedWeights.total.isFinite = true) (father mother : Strategy) :
    Settles (breed g settings father mother) fun _ => True :=
  (settles_weighted hne htotal hfin).bind fun _ _ =>
    (settles_crossed hg father mother _).bind fun _ h => settles_ofRules h

end Strategy

end TradeRules
