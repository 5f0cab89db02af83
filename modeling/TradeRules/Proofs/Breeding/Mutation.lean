import TradeRules.Breeding.Cross
import TradeRules.Proofs.Breeding.Generator
import TradeRules.Proofs.Rule.Sites

/-!
# Mutation and breeding keep kinds

Every mutation puts a tree in the place of a site, and that tree has the kind of the site.  So the whole
keeps its kind (`splice_hasKind`), whichever site is taken and whatever numbers are drawn.  Recombination
takes the tree from another well-typed tree.

A rule may be mutated several times over (`yields_mutateWithin`), and each round starts from a rule of
the same kind.
-/

namespace TradeRules

open Draw

namespace Generator

variable {g : Generator} {e a r : Expr} {kind j k : Kind} {path : Path}

/-! ## Sites -/

/-- A tree of the kind of a site in its place. -/
theorem splice_hasKind (he : e.HasKind k) (hat : e.at? path = some a) (ha : a.HasKind j)
    (hr : r.HasKind j) : (splice e path r).HasKind k := by
  obtain ⟨e', hrep, hk⟩ := Expr.HasKind.replace? ha hr path he hat
  rw [splice, hrep]
  exact hk

theorem yields_pickSite (sites : List (Path × Expr)) :
    Yields (pickSite sites) fun found => ∀ site, found = some site → site ∈ sites := by
  cases sites with
  | nil => exact Yields.pure fun _ h => by cases h
  | cons site rest =>
    refine (yields_pick site rest).bind fun s hs => Yields.pure fun _ h => ?_
    cases h
    exact hs

theorem yields_site (e : Expr) : Yields (site e) fun s => e.at? s.1 = some s.2 := by
  refine (yields_pickSite e.sites).bind fun found hfound => ?_
  cases found with
  | none => exact Yields.throw id
  | some s => exact Yields.pure (Expr.at?_of_mem_sites (hfound s rfl))

/-- The site at a given path, or a chosen one, is a site of the tree. -/
theorem yields_siteAt (e : Expr) (path : Option Path) :
    Yields (siteAt e path) fun s => e.at? s.1 = some s.2 := by
  cases path with
  | none => exact yields_site e
  | some path =>
    unfold siteAt
    dsimp only
    split
    · next a ha => exact Yields.pure ha
    · exact Yields.throw id

theorem mem_of_filterAuxM {ε α : Type} {p : α → Except ε Bool} {xs kept ys : List α}
    (h : xs.filterAuxM p kept = .ok ys) : ∀ y ∈ ys, y ∈ kept ∨ y ∈ xs ∧ p y = .ok true := by
  induction xs generalizing kept with
  | nil =>
    cases h
    exact fun y hy => .inl hy
  | cons x xs ih =>
    obtain ⟨b, hx, hrest⟩ := bind_eq_ok.mp h
    intro y hy
    rcases ih hrest y hy with hkept | ⟨hmem, hyes⟩
    · cases b with
      | false => exact .inl hkept
      | true =>
        rcases List.mem_cons.mp hkept with rfl | hkept
        · exact .inr ⟨List.mem_cons_self, hx⟩
        · exact .inl hkept
    · exact .inr ⟨List.mem_cons_of_mem x hmem, hyes⟩

/-- The members that a check keeps are members for which it says yes. -/
theorem mem_of_filterM {ε α : Type} {p : α → Except ε Bool} {xs ys : List α}
    (h : xs.filterM p = .ok ys) : ∀ y ∈ ys, y ∈ xs ∧ p y = .ok true := by
  obtain ⟨kept, hkept, hys⟩ := bind_eq_ok.mp h
  cases hys
  intro y hy
  rcases mem_of_filterAuxM hkept y (List.mem_reverse.mp hy) with hnil | h
  · cases hnil
  · exact h

/-- The sites of a kind in a well-typed tree have it. -/
theorem yields_siteOf (hr : r.HasKind j) (kind : Kind) :
    Yields (siteOf kind r) fun found => ∀ s, found = some s → s.2.HasKind kind := by
  refine (yields_built (P := fun sites => ∀ s ∈ sites, s.2.HasKind kind) ?_).bind
    fun sites hsites => (yields_pickSite sites).mono fun found hfound s hs => ?_
  · intro sites hsites s hs
    obtain ⟨hmem, hkind⟩ := mem_of_filterM hsites s hs
    obtain ⟨l, hl⟩ := hr.at? s.1 (Expr.at?_of_mem_sites hmem)
    rw [hl.declaredKind] at hkind
    obtain rfl : l = kind := by simpa [Except.map] using hkind
    exact hl
  · exact hsites s (hfound s hs)

/-! ## Mutations of a site -/

/-- The number that is the smoothing constant of an average is FLOAT. -/
theorem hasKind_smoothing (he : e.HasKind k) (hat : e.at? path = some a)
    (h : isSmoothing e path = true) : a.HasKind .float := by
  obtain ⟨hlast, hshape⟩ := Bool.and_eq_true_iff.mp h
  rw [beq_iff_eq, List.getLast?_eq_some_iff] at hlast
  obtain ⟨rest, rfl⟩ := hlast
  rw [List.dropLast_concat] at hshape
  split at hshape
  · next x y z w _ hema _ =>
    obtain ⟨l, hl⟩ := he.at? rest hema
    obtain ⟨_, _, _, _, -, -, -, hw, hr⟩ := Expr.hasKind_quaternary.mp hl
    rw [Expr.at?_append_singleton, hema] at hat
    cases hat
    exact (Quaternary.rule_ema.mp hr).2.2.2 ▸ hw
  · cases hshape

theorem declaredKind_eq (ha : a.HasKind j) :
    Yields (Draw.built a.declaredKind) (· = j) :=
  yields_built fun _ hk => Except.ok.inj (hk.symm.trans ha.declaredKind)

/-- A site made anew. -/
theorem yields_modifyAt (hg : g.KnowsQuotes) (he : e.HasKind k) (hat : e.at? path = some a) :
    Yields (g.modifyAt e path a) (·.HasKind k) := by
  obtain ⟨j, ha⟩ := he.at? path hat
  refine Yields.ite (fun hs => ?_) fun _ => ?_
  · exact yields_smoothing.bind fun _ hr =>
      Yields.pure (splice_hasKind he hat (hasKind_smoothing he hat hs) hr)
  · refine (declaredKind_eq ha).bind fun kind hkind => ?_
    subst hkind
    refine (yields_tree hg 1 ?_).bind fun r hr => Yields.pure (splice_hasKind he hat ha hr)
    intro m hm
    cases hm
    exact ⟨_, ha⟩

/-- A leaf in the place of a site. -/
theorem yields_deleteAt (hg : g.KnowsQuotes) (he : e.HasKind k) (hat : e.at? path = some a) :
    Yields (g.deleteAt e path a) (·.HasKind k) := by
  obtain ⟨j, ha⟩ := he.at? path hat
  refine Yields.ite (fun _ => yields_modifyAt hg he hat) fun _ => ?_
  refine (declaredKind_eq ha).bind fun kind hkind => ?_
  subst hkind
  exact (yields_leaf hg kind).bind fun r hr => Yields.pure (splice_hasKind he hat ha hr)

/-- The slots of a kind are operands of the kind. -/
theorem yields_slots (hr : r.HasKind j) (kind : Kind) :
    Yields (slots kind r) fun is => ∀ i ∈ is, ∃ b, r.operands[i]? = some b ∧ b.HasKind kind := by
  refine (yields_built (P := fun kinds => r.operands.mapM Expr.declaredKind = .ok kinds)
    fun _ h => h).bind fun kinds hkinds => Yields.pure fun i hi => ?_
  have hkind : kinds[i]? = some kind := by simpa using (List.mem_filter.mp hi).2
  have hat := getElem?_mapM hkinds i
  rw [hkind] at hat
  obtain ⟨b, hb, hdeclared⟩ := Option.map_eq_some_iff.mp hat
  obtain ⟨l, hl⟩ := hr.operand hb
  have hlk : l = kind := Except.ok.inj (hl.declaredKind.symm.trans hdeclared)
  exact ⟨b, hb, hlk ▸ hl⟩

/-- A new operation around a tree of a kind has that kind. -/
theorem yields_wrap (hg : g.KnowsQuotes) (ha : a.HasKind kind) (level : Int) (attempts : Nat) :
    Yields (g.wrap a kind level attempts) fun found => ∀ r, found = some r → r.HasKind kind := by
  induction attempts with
  | zero => exact Yields.pure fun _ h => by cases h
  | succ attempts ih =>
    refine (yields_branch hg level fun _ h => by cases h).bind fun wrapper hw => ?_
    refine (yields_slots hw kind).bind fun is his => ?_
    cases is with
    | nil => exact ih
    | cons slot rest =>
      refine (yields_pick slot rest).bind fun i hi => Yields.pure fun _ h => ?_
      obtain ⟨b, hb, hkb⟩ := his i hi
      cases h
      exact hw.setOperand hb hkb ha

/-- A new operation around a site. -/
theorem yields_insertAt (hg : g.KnowsQuotes) (he : e.HasKind k) (hat : e.at? path = some a) :
    Yields (g.insertAt e path a) (·.HasKind k) := by
  obtain ⟨j, ha⟩ := he.at? path hat
  refine (declaredKind_eq ha).bind fun kind hkind => ?_
  subst hkind
  refine (yields_wrap hg ha _ _).bind fun found hfound => ?_
  cases found with
  | none => exact yields_modifyAt hg he hat
  | some r => exact Yields.pure (splice_hasKind he hat ha (hfound r rfl))

/-! ## Mutations of a tree -/

theorem yields_insertion (hg : g.KnowsQuotes) (he : e.HasKind k) (path : Option Path) :
    Yields (g.insertion e path) (·.HasKind k) :=
  (yields_siteAt e path).bind fun _ hs => yields_insertAt hg he hs

theorem yields_deletion (hg : g.KnowsQuotes) (he : e.HasKind k) (path : Option Path) :
    Yields (g.deletion e path) (·.HasKind k) :=
  (yields_siteAt e path).bind fun _ hs => yields_deleteAt hg he hs

theorem yields_modification (hg : g.KnowsQuotes) (he : e.HasKind k) (path : Option Path) :
    Yields (g.modification e path) (·.HasKind k) :=
  (yields_siteAt e path).bind fun _ hs => yields_modifyAt hg he hs

theorem yields_mutateOnce (hg : g.KnowsQuotes) (he : e.HasKind k) :
    Yields (g.mutateOnce e) (·.HasKind k) := by
  refine (yields_choose _).bind fun name _ => ?_
  split
  · exact yields_insertion hg he none
  · exact yields_deletion hg he none
  · exact yields_modification hg he none

/-- Any number of mutations in a row. -/
theorem yields_mutateWithin (hg : g.KnowsQuotes) (rounds : Nat) (percent : Int)
    (he : e.HasKind k) : Yields (g.mutateWithin rounds percent e) (·.HasKind k) := by
  induction rounds generalizing percent e with
  | zero => exact Yields.throw id
  | succ rounds ih =>
    refine (yields_below 100).then fun _ => Yields.ite (fun _ => ?_) fun _ => Yields.pure he
    exact (yields_mutateOnce hg he).bind fun _ he' => ih _ he'

theorem yields_recombine (he : e.HasKind k) (hr : r.HasKind j) :
    Yields (recombine e r) (·.HasKind k) := by
  refine (yields_site e).bind fun s hs => ?_
  obtain ⟨l, hl⟩ := he.at? s.1 hs
  refine (declaredKind_eq hl).bind fun kind hkind => ?_
  subst hkind
  refine (yields_siteOf hr kind).bind fun found hfound => ?_
  cases found with
  | none => exact Yields.pure he
  | some b => exact Yields.pure (splice_hasKind he hs hl (hfound b rfl))

end Generator

end TradeRules
