import TradeRules.Proofs.Breeding.Depth
import TradeRules.Proofs.Breeding.Mutation
import TradeRules.Proofs.Rule.Splicing

/-!
# Mutation and recombination are local

Each operator ends by putting one tree in the place of a site (`spliced_splice`), so what stands at paths
that lead elsewhere stays.  What differs is the tree that is put there.

* An insertion draws new operations until one has an operand of the kind of the site.  The runs of
  draws that have none are `FailedWraps`.  When all attempts are spent the insertion goes on as a
  modification; else it puts the old tree into the operation it has found (`Wraps`), and the whole grows.
* A deletion of a site that is neither the root nor a leaf puts a leaf there, and the whole shrinks.
* A modification of a smoothing constant puts another one there, in the range of the constants.
* A recombination puts a tree of the same kind there, which is a subtree of the source.
-/

namespace TradeRules

open Draw
open TradeRules.Expr (Spliced)

namespace Expr

variable {e a : Expr} {i : ℕ}

theorem isLeaf_of_operand (h : e.operands[i]? = some a) : e.isLeaf = false := by
  cases e with
  | leaf l => cases h
  | unary op x => rfl
  | binary op x y => rfl
  | ternary op x y z => rfl
  | quaternary op x y z w => rfl

theorem size_eq_one_iff : e.size = 1 ↔ e.isLeaf = true := by
  cases e with
  | leaf l => exact ⟨fun _ => rfl, fun _ => rfl⟩
  | unary op x | binary op x y | ternary op x y z | quaternary op x y z w =>
    have hpos := size_pos x
    simp only [size, isLeaf, Bool.false_eq_true, iff_false]
    omega

/-- An operand is smaller than the whole, as the tree with a leaf in its place is no leaf. -/
theorem size_operand_lt (h : e.operands[i]? = some a) : a.size < e.size := by
  have hsize := size_setOperand h (.truth true)
  have hone : (e.setOperand i (.truth true)).size ≠ 1 := fun hone => by
    have hleaf := isLeaf_of_operand (operand_setOperand h (.truth true))
    rw [size_eq_one_iff.mp hone] at hleaf
    cases hleaf
  have hpos := size_pos (e.setOperand i (.truth true))
  rw [show (Expr.truth true).size = 1 from rfl] at hsize
  omega

end Expr

namespace Generator

variable {g : Generator} {e e' a r : Expr} {i j k : Kind} {path : Path} {level : ℤ} {d d' : Draws}

/-! ## Runs of an insertion -/

/-- Whether a number of new operations drawn in a row have no operand of their kind. -/
inductive FailedWraps (g : Generator) (kind : Kind) (level : ℤ) : ℕ → Draws → Draws → Prop where
  | none {d : Draws} : g.FailedWraps kind level 0 d d
  | next {wrapper : Expr} {n : ℕ} {d d₁ d' : Draws}
    (drawn : (g.branch kind level .none).run.run d = (.ok wrapper, d₁))
    (failed : ∀ b ∈ wrapper.operands, b.declaredKind ≠ .ok kind)
    (rest : g.FailedWraps kind level n d₁ d') : g.FailedWraps kind level (n + 1) d d'

/-- Whether a tree is the next operation drawn, with another tree put in the place of an operand of
their kind. -/
inductive Wraps (g : Generator) (kind : Kind) (level : ℤ) (a : Expr) (d : Draws) : Expr → Prop where
  | intro {wrapper b : Expr} {slot : ℕ} {d' : Draws}
    (drawn : (g.branch kind level none).run.run d = (.ok wrapper, d'))
    (operand : wrapper.operands[slot]? = some b) (fits : b.declaredKind = .ok kind) :
    g.Wraps kind level a d (wrapper.setOperand slot a)

/-- The old tree is an operand of the new one, which is larger. -/
theorem Wraps.around (h : g.Wraps j level a d r) :
    r.isLeaf = false ∧ a ∈ r.operands ∧ a.size < r.size := by
  obtain ⟨hdrawn, hoperand, hfits⟩ := h
  have hplaced := Expr.operand_setOperand hoperand a
  have hsize := Expr.size_setOperand hoperand a
  have hless := Expr.size_operand_lt hoperand
  exact ⟨Expr.isLeaf_of_operand hplaced, List.mem_of_getElem? hplaced, by omega⟩

theorem Wraps.hasKind (h : g.Wraps j level a d r) (hg : g.KnowsQuotes) (ha : a.HasKind j) :
    r.HasKind j := by
  obtain ⟨hdrawn, hoperand, hfits⟩ := h
  have hwrapper := (yields_branch hg level fun _ h => by cases h).ok hdrawn
  obtain ⟨l, hl⟩ := hwrapper.operand hoperand
  obtain rfl : l = j := Except.ok.inj (hl.declaredKind.symm.trans hfits)
  exact hwrapper.setOperand hoperand hl ha

/-- The slots of a kind are where the operands of the kind stand. -/
theorem run_slots {is : List ℕ} (h : (slots j r).run.run d = (.ok is, d')) :
    d' = d ∧ ∀ slot, slot ∈ is ↔ ∃ b, r.operands[slot]? = some b ∧ b.declaredKind = .ok j := by
  unfold slots at h
  cases hkinds : r.operands.mapM Expr.declaredKind with
  | error e =>
    rw [hkinds] at h
    cases h
  | ok kinds =>
    rw [hkinds] at h
    cases h
    refine ⟨rfl, fun slot => ?_⟩
    have hat := getElem?_mapM hkinds slot
    simp only [List.mem_filter, List.mem_range, beq_iff_eq]
    constructor
    · rintro ⟨-, hkind⟩
      rw [hkind] at hat
      obtain ⟨b, hb, hdeclared⟩ := Option.map_eq_some_iff.mp hat
      exact ⟨b, hb, hdeclared⟩
    · rintro ⟨b, hb, hdeclared⟩
      rw [hb, Option.map_some, hdeclared] at hat
      obtain ⟨kind, hkind, hsame⟩ := Option.map_eq_some_iff.mp hat.symm
      cases hsame
      exact ⟨(List.getElem?_eq_some_iff.mp hkind).1, hkind⟩

/-- What the attempts to wrap a tree come to. -/
theorem run_wrap {attempts : ℕ} {found : Option Expr}
    (h : (g.wrap a j level attempts).run.run d = (.ok found, d')) :
    (found = none ∧ g.FailedWraps j level attempts d d') ∨
      ∃ n < attempts, ∃ d₁ r, found = some r ∧ g.FailedWraps j level n d d₁ ∧
        g.Wraps j level a d₁ r := by
  induction attempts generalizing d with
  | zero =>
    cases h
    exact .inl ⟨rfl, .none⟩
  | succ attempts ih =>
    obtain ⟨wrapper, d₁, hdrawn, h⟩ := run_bind_eq_ok h
    obtain ⟨is, d₂, hslots, h⟩ := run_bind_eq_ok h
    obtain ⟨rfl, hmem⟩ := run_slots hslots
    cases is with
    | nil =>
      have hfailed : ∀ b ∈ wrapper.operands, b.declaredKind ≠ .ok j := by
        intro b hb hdeclared
        obtain ⟨slot, hslot⟩ := List.mem_iff_getElem?.mp hb
        exact List.not_mem_nil ((hmem slot).mpr ⟨b, hslot, hdeclared⟩)
      rcases ih h with ⟨hnone, hrest⟩ | ⟨n, hn, d₁, r, hfound, hrest, hwraps⟩
      · exact .inl ⟨hnone, .next hdrawn hfailed hrest⟩
      · exact .inr ⟨n + 1, by omega, d₁, r, hfound, .next hdrawn hfailed hrest, hwraps⟩
    | cons first rest =>
      obtain ⟨slot, d₃, hpick, h⟩ := run_bind_eq_ok h
      cases h
      obtain ⟨b, hb, hdeclared⟩ := (hmem slot).mp ((yields_pick first rest).ok hpick)
      exact .inr ⟨0, by omega, _, _, rfl, .none, .intro hdrawn hb hdeclared⟩

/-! ## The operators at a site -/

theorem built_ok {α : Type} (x : α) : Draw.built (.ok x) = pure x :=
  rfl

theorem spliced_splice (hat : e.at? path = some a) (r : Expr) :
    Spliced e path a r (splice e path r) := by
  obtain ⟨e', he'⟩ := (Expr.exists_replace?_iff e r path).mpr ⟨a, hat⟩
  rw [splice, he']
  exact Expr.spliced_of_replace? he' hat

theorem siteAt_some (hat : e.at? path = some a) : siteAt e (some path) = pure (path, a) := by
  simp only [siteAt, hat]

theorem insertion_at (hat : e.at? path = some a) :
    g.insertion e (some path) = g.insertAt e path a := by
  rw [insertion, siteAt_some hat, pure_bind]

theorem deletion_at (hat : e.at? path = some a) :
    g.deletion e (some path) = g.deleteAt e path a := by
  rw [deletion, siteAt_some hat, pure_bind]

theorem modification_at (hat : e.at? path = some a) :
    g.modification e (some path) = g.modifyAt e path a := by
  rw [modification, siteAt_some hat, pure_bind]

theorem run_splice {m : Draw Expr} (hat : e.at? path = some a)
    (h : (do return splice e path (← m) : Draw Expr).run.run d = (.ok e', d')) :
    ∃ r, m.run.run d = (.ok r, d') ∧ Spliced e path a r e' := by
  obtain ⟨r, d₁, hm, h⟩ := run_bind_eq_ok h
  cases h
  exact ⟨r, hm, spliced_splice hat r⟩

/-- A modification changes one site. -/
theorem run_modification (hat : e.at? path = some a)
    (h : (g.modification e (some path)).run.run d = (.ok e', d')) : ∃ r, Spliced e path a r e' := by
  rw [modification_at hat, modifyAt] at h
  split_ifs at h
  · obtain ⟨r, -, hspliced⟩ := run_splice hat h
    exact ⟨r, hspliced⟩
  · obtain ⟨kind, d₁, -, h⟩ := run_bind_eq_ok h
    obtain ⟨r, -, hspliced⟩ := run_splice hat h
    exact ⟨r, hspliced⟩

/-- A smoothing constant is made anew within its range. -/
theorem run_modification_smoothing {rest : Path} {q period offset : Expr} {l : Literal}
    (hema : e.at? rest = some (.quaternary .ema q period offset (.number l)))
    (hd : d.InUnit)
    (h : (g.modification e (some (rest ++ [smoothingIndex]))).run.run d = (.ok e', d')) :
    ∃ x hx, e'.at? (rest ++ [smoothingIndex]) = some (.number (.real x hx)) ∧
      Smoothing.least ≤ x ∧ x ≤ Smoothing.greatest := by
  have hat : e.at? (rest ++ [smoothingIndex]) = some (.number l) := by
    rw [Expr.at?_append_singleton, hema]
    rfl
  have hsmoothing : isSmoothing e (rest ++ [smoothingIndex]) = true := by
    simp [isSmoothing, hat, hema]
  rw [modification_at hat, modifyAt, if_pos hsmoothing] at h
  obtain ⟨r, hr, hspliced⟩ := run_splice hat h
  obtain ⟨x, hx, rfl, hrange⟩ := (ends_smoothing_within (g := g)).ok hd hr |>.1
  exact ⟨x, hx, hspliced.placed, hrange⟩

theorem yields_leaf_isLeaf (g : Generator) (kind : Kind) :
    Yields (g.leaf kind) (·.isLeaf = true) := by
  have hliteral : ∀ kind value, Yields (literal kind value) (·.isLeaf = true) := fun kind value =>
    (yields_built fun _ _ => trivial : Yields _ fun _ => True).then fun _ => Yields.pure rfl
  cases kind with
  | boolean => exact (yields_below 2).then fun _ => Yields.pure rfl
  | float => exact yields_unit.then fun _ => hliteral _ _
  | integer =>
    refine (yields_choose _).bind fun name _ => ?_
    cases IntegerLeaf.ofName? name with
    | none => exact Yields.throw id
    | some leaf =>
      cases leaf with
      | number => exact (yields_below _).then fun _ => hliteral _ _
      | held => exact Yields.pure rfl
      | order => exact Yields.pure rfl
      | date part => exact Yields.pure rfl
  | floatQuote =>
    refine (yields_choose _).bind fun name _ => yields_built fun q hq => ?_
    unfold Expr.buildQuote at hq
    split at hq <;> cases hq
    rfl
  | integerQuote => exact Yields.pure rfl

/-- A deletion away from the root and the leaves puts a leaf in the place of the site. -/
theorem run_deletion (hat : e.at? path = some a) (hpath : path ≠ []) (ha : a.isLeaf = false)
    (h : (g.deletion e (some path)).run.run d = (.ok e', d')) :
    ∃ r, r.isLeaf = true ∧ Spliced e path a r e' ∧ e'.size < e.size := by
  rw [deletion_at hat, deleteAt, if_neg (by simp [hpath, ha])] at h
  obtain ⟨kind, d₁, -, h⟩ := run_bind_eq_ok h
  obtain ⟨r, hr, hspliced⟩ := run_splice hat h
  have hleaf := (yields_leaf_isLeaf g kind).ok hr
  have hsize := hspliced.size
  have hsmall := Expr.size_eq_one_iff.mpr hleaf
  have hlarge : a.size ≠ 1 := fun hone => by
    rw [Expr.size_eq_one_iff.mp hone] at ha
    cases ha
  have hpos := a.size_pos
  exact ⟨r, hleaf, hspliced, by omega⟩

/-- At the root and at the leaves a deletion is a modification. -/
theorem deletion_eq_modification (hat : e.at? path = some a) (h : path = [] ∨ a.isLeaf = true) :
    g.deletion e (some path) = g.modification e (some path) := by
  rw [deletion_at hat, modification_at hat, deleteAt, if_pos]
  rcases h with rfl | h
  · rfl
  · rw [h, Bool.or_true]

/-- An insertion goes on as a modification when it has found no operation, and else makes the tree
larger. -/
theorem run_insertion (hat : e.at? path = some a) (ha : a.HasKind j)
    (h : (g.insertion e (some path)).run.run d = (.ok e', d')) :
    (∃ d₁, g.FailedWraps j (path.length + 1) insertionAttempts d d₁ ∧
      (g.modification e (some path)).run.run d₁ = (.ok e', d')) ∨
    ∃ n < insertionAttempts, ∃ d₁ r, g.FailedWraps j (path.length + 1) n d d₁ ∧
      g.Wraps j (path.length + 1) a d₁ r ∧ Spliced e path a r e' ∧ e.size < e'.size := by
  rw [insertion_at hat, insertAt, ha.declaredKind, built_ok, pure_bind] at h
  obtain ⟨found, d₁, hwrap, h⟩ := run_bind_eq_ok h
  rcases run_wrap hwrap with ⟨rfl, hfailed⟩ | ⟨n, hn, d₂, r, rfl, hfailed, hwraps⟩
  · exact .inl ⟨d₁, hfailed, by rwa [modification_at hat]⟩
  · cases h
    have hspliced := spliced_splice hat r
    have hsize := hspliced.size
    have hlarger := hwraps.around.2.2
    exact .inr ⟨n, hn, d₂, r, hfailed, hwraps, hspliced, by omega⟩

/-! ## Recombination -/

/-- A recombination puts a subtree of the source in the place of a site, of the same kind. -/
theorem run_recombine (he : e.HasKind k) (hr : r.HasKind i)
    (h : (recombine e r).run.run d = (.ok e', d')) :
    e' = e ∨ ∃ path a from' b j, e.at? path = some a ∧ r.at? from' = some b ∧ a.HasKind j ∧
      b.HasKind j ∧ Spliced e path a b e' := by
  obtain ⟨⟨path, a⟩, d₁, hsite, h⟩ := run_bind_eq_ok h
  have hat : e.at? path = some a := (yields_site e).ok hsite
  obtain ⟨j, ha⟩ := he.at? path hat
  dsimp only at h
  rw [ha.declaredKind, built_ok, pure_bind, siteOf, hr.sitesOf_eq j, built_ok, pure_bind] at h
  obtain ⟨found, d₂, hfound, h⟩ := run_bind_eq_ok h
  cases found with
  | none =>
    cases h
    exact .inl rfl
  | some s =>
    cases h
    obtain ⟨hmem, hkind⟩ := List.mem_filter.mp ((yields_pickSite _).ok hfound s rfl)
    exact .inr ⟨path, a, s.1, s.2, j, hat, Expr.at?_of_mem_sites hmem, ha,
      of_decide_eq_true (p := s.2.check = .ok j) hkind, spliced_splice hat s.2⟩

/-! ## All operators -/

/-- What stands away from the site stays. -/
theorem at?_of_mutation (hat : e.at? path = some a) (ha : a.HasKind j) {m : Draw Expr}
    (hm : m ∈ [g.insertion e (some path), g.deletion e (some path), g.modification e (some path)])
    (h : m.run.run d = (.ok e', d')) {other : Path} (hbelow : ¬path <+: other)
    (habove : ¬other <+: path) : e'.at? other = e.at? other := by
  have hmodification : ∀ {d}, (g.modification e (some path)).run.run d = (.ok e', d') →
      e'.at? other = e.at? other := fun h => by
    obtain ⟨r, hspliced⟩ := run_modification hat h
    exact hspliced.elsewhere other hbelow habove
  simp only [List.mem_cons, List.not_mem_nil, or_false] at hm
  rcases hm with rfl | rfl | rfl
  · rcases run_insertion hat ha h with ⟨d₁, -, h⟩ | ⟨n, -, d₁, r, -, -, hspliced, -⟩
    · exact hmodification h
    · exact hspliced.elsewhere other hbelow habove
  · by_cases hcase : path = [] ∨ a.isLeaf = true
    · rw [deletion_eq_modification hat hcase] at h
      exact hmodification h
    · obtain ⟨hpath, hleaf⟩ := not_or.mp hcase
      obtain ⟨r, -, hspliced, -⟩ := run_deletion hat hpath (Bool.not_eq_true _ ▸ hleaf) h
      exact hspliced.elsewhere other hbelow habove
  · exact hmodification h

/-- Mutation and recombination are local.  A mutation of a site leaves what stands elsewhere.  An
insertion goes on as a modification once all its attempts have failed, and else puts a new operation
around the site; a deletion puts a leaf there, unless it is a modification; a modification makes a
smoothing constant anew within its range.  A recombination puts a subtree of the source in the place of
one of the same kind, if it changes anything. -/
theorem mutations_are_local (g : Generator) (he : e.HasKind k) :
    (∀ path a, e.at? path = some a → ∃ j, a.HasKind j ∧
      (∀ m ∈ [g.insertion e (some path), g.deletion e (some path), g.modification e (some path)],
        ∀ d e' d', m.run.run d = (.ok e', d') →
          ∀ other, ¬path <+: other → ¬other <+: path → e'.at? other = e.at? other) ∧
      (∀ d e' d', (g.insertion e (some path)).run.run d = (.ok e', d') →
        (∃ d₁, g.FailedWraps j (path.length + 1) insertionAttempts d d₁ ∧
          (g.modification e (some path)).run.run d₁ = (.ok e', d')) ∨
        ∃ n < insertionAttempts, ∃ d₁ r, g.FailedWraps j (path.length + 1) n d d₁ ∧
          g.Wraps j (path.length + 1) a d₁ r ∧ (g.KnowsQuotes → r.HasKind j) ∧
          e'.at? path = some r ∧ r.isLeaf = false ∧ a ∈ r.operands ∧ e.size < e'.size) ∧
      (path = [] ∨ a.isLeaf = true →
        g.deletion e (some path) = g.modification e (some path)) ∧
      (path ≠ [] → a.isLeaf = false →
        ∀ d e' d', (g.deletion e (some path)).run.run d = (.ok e', d') →
          ∃ r, e'.at? path = some r ∧ r.isLeaf = true ∧ e'.size < e.size) ∧
      ∀ rest q period offset l, path = rest ++ [smoothingIndex] →
        e.at? rest = some (.quaternary .ema q period offset (.number l)) →
        ∀ d e' d', d.InUnit → (g.modification e (some path)).run.run d = (.ok e', d') →
          ∃ x hx, e'.at? path = some (.number (.real x hx)) ∧
            Smoothing.least ≤ x ∧ x ≤ Smoothing.greatest) ∧
    ∀ source i, source.HasKind i →
      ∀ d e' d', (recombine e source).run.run d = (.ok e', d') → e' = e ∨
        ∃ path a origin b j, e.at? path = some a ∧ source.at? origin = some b ∧ a.HasKind j ∧
          b.HasKind j ∧ Spliced e path a b e' := by
  refine ⟨fun path a hat => ?_, fun source i hsource d e' d' h => run_recombine he hsource h⟩
  obtain ⟨j, ha⟩ := he.at? path hat
  refine ⟨j, ha, ?_, ?_, deletion_eq_modification hat, ?_, ?_⟩
  · exact fun m hm d e' d' h other hbelow habove => at?_of_mutation hat ha hm h hbelow habove
  · intro d e' d' h
    refine (run_insertion hat ha h).imp_right ?_
    rintro ⟨n, hn, d₁, r, hfailed, hwraps, hspliced, hsize⟩
    obtain ⟨hleaf, hmem, -⟩ := hwraps.around
    exact ⟨n, hn, d₁, r, hfailed, hwraps, fun hg => hwraps.hasKind hg ha, hspliced.placed, hleaf,
      hmem, hsize⟩
  · intro hpath hleaf d e' d' h
    obtain ⟨r, hr, hspliced, hsize⟩ := run_deletion hat hpath hleaf h
    exact ⟨r, hspliced.placed, hr, hsize⟩
  · rintro rest q period offset l rfl hema d e' d' hd h
    exact run_modification_smoothing hema hd h

/-- In `ema(close,10,0,0.5)>1.0` the smoothing constant is made anew, and the rest stays. -/
theorem mutations_are_local_smoothing :
    let e : Expr := .comparison .greater
      (.quaternary .ema (.quote .closing) (.number (.whole 10 rfl)) (.number (.whole 0 rfl))
        (.number (.real 0.5 rfl)))
      (.number (.real 1.0 rfl))
    e.HasKind .boolean ∧ ∃ e' d',
      (modification {} e (some [0, 3])).run.run (.ofTape #[0.25]) = (.ok e', d') ∧
        e'.at? [0, 0] = some (.quote .closing) ∧ e'.at? [1] = e.at? [1] ∧
        ∃ x hx, e'.at? [0, 3] = some (.number (.real x hx)) ∧ Smoothing.least ≤ x := by
  intro e
  have hkind : e.HasKind .boolean := by rfl
  have hunit : (Draws.ofTape #[0.25]).InUnit := Draws.inUnit_ofTape (by decide +kernel)
  obtain ⟨j, -, hlocal, -, -, -, hsmoothing⟩ := (mutations_are_local {} hkind).1 [0, 3] _ rfl
  have hdone : ∃ e', ((modification {} e (some [0, 3])).run.run (.ofTape #[0.25])).1 = .ok e' :=
    ⟨_, rfl⟩
  obtain ⟨e', hresult⟩ := hdone
  obtain ⟨d', hrun⟩ := exists_run_eq hresult
  have hstays := hlocal _ (by simp) _ _ _ hrun
  obtain ⟨x, hx, hplaced, hleast, -⟩ := hsmoothing [0] _ _ _ _ rfl rfl _ _ _ hunit hrun
  exact ⟨hkind, e', d', hrun, hstays [0, 0] (by decide) (by decide), hstays [1] (by decide) (by decide),
    x, hx, hplaced, hleast⟩

end Generator

end TradeRules
