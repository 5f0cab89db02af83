import Mathlib
import TradeRules.Proofs.Rule.Sites
import TradeRules.Proofs.Rule.Typing

/-!
# Sites, and trees put in their place

The sites of a tree are listed in the order of their paths, a node before its operands and the operands
from left to right, and none twice (`sorted_paths`).  So there are as many sites as nodes
(`length_sites`).  In a well-typed tree the sites of a kind are as many as the nodes that are counted of
that kind (`countOf_eq_countP`), and each node is of one kind (`sum_countP_kinds`).

To put a tree in the place of a site changes nothing beside the path (`Spliced`): what stands at a path
that leads elsewhere stays, and the size changes by the difference of the two trees.  Whether a tree can
be put there depends on the path alone (`exists_replace?_iff`).

Both parts are about paths, and a path is followed from the root.  So the proofs are by induction on the
path, except where sites are counted or listed.
-/

namespace TradeRules

/-- A check that always has an answer keeps the members for which it says yes. -/
theorem filterM_eq_filter {ε α : Type} {p : α → Except ε Bool} {q : α → Bool} {xs : List α}
    (h : ∀ x ∈ xs, p x = .ok (q x)) : xs.filterM p = .ok (xs.filter q) := by
  have haux : ∀ kept, xs.filterAuxM p kept = .ok ((xs.filter q).reverse ++ kept) := by
    induction xs with
    | nil => exact fun kept => rfl
    | cons x xs ih =>
      intro kept
      have hrest := ih fun y hy => h y (List.mem_cons_of_mem x hy)
      refine (bind_of_ok (h x List.mem_cons_self)).trans ?_
      cases hq : q x with
      | false => simpa [hq] using hrest kept
      | true => simpa [hq] using hrest (x :: kept)
  rw [List.filterM, haux []]
  simp [bind, Except.bind, pure, Except.pure]

namespace Expr

variable {a b e e' r : Expr} {i j : ℕ} {k : Kind} {path other : Path}

/-! ## The order of the sites -/

/-- Whether sites stand in the order of their paths.  A path stands before its extensions, and those
before the paths that leave to the right of it. -/
def Sorted (sites : List (Path × Expr)) : Prop :=
  (sites.map Prod.fst).Pairwise (· < ·)

theorem paths_inOperand (i : ℕ) (sites : List (Path × Expr)) :
    (inOperand i sites).map Prod.fst = (sites.map Prod.fst).map (i :: ·) := by
  simp [inOperand, Function.comp_def]

theorem Sorted.inOperand {sites : List (Path × Expr)} (h : Sorted sites) (i : ℕ) :
    Sorted (inOperand i sites) := by
  rw [Sorted, paths_inOperand, List.pairwise_map]
  exact h.imp fun hlt => List.cons_lt_cons_iff.mpr (.inr ⟨rfl, hlt⟩)

theorem nil_lt_of_mem_inOperand {sites : List (Path × Expr)} {site : Path × Expr}
    (h : site ∈ inOperand i sites) : [] < site.1 := by
  obtain ⟨below, -, rfl⟩ := List.mem_map.mp h
  exact List.nil_lt_cons i below.1

theorem lt_of_mem_inOperand {sites sites' : List (Path × Expr)} {site site' : Path × Expr}
    (hij : i < j) (h : site ∈ inOperand i sites) (h' : site' ∈ inOperand j sites') :
    site.1 < site'.1 := by
  obtain ⟨below, -, rfl⟩ := List.mem_map.mp h
  obtain ⟨below', -, rfl⟩ := List.mem_map.mp h'
  exact List.cons_lt_cons_iff.mpr (.inl hij)

/-- The sites below operands are in order when those of each operand are. -/
theorem sorted_below : ∀ (es : List Expr) (n : ℕ), (∀ a ∈ es, Sorted a.sites) →
    Sorted ((es.zipIdx n).flatMap fun entry => inOperand entry.2 entry.1.sites)
  | [], _, _ => List.Pairwise.nil
  | a :: es, n, h => by
    have hhead := (h a List.mem_cons_self).inOperand n
    have htail := sorted_below es (n + 1) fun b hb => h b (List.mem_cons_of_mem a hb)
    rw [List.zipIdx_cons, List.flatMap_cons, Sorted, List.map_append, List.pairwise_append]
    refine ⟨hhead, htail, ?_⟩
    simp only [List.forall_mem_map]
    intro site hsite site' hsite'
    obtain ⟨⟨b, j⟩, hb, hsite'⟩ := List.mem_flatMap.mp hsite'
    exact lt_of_mem_inOperand (List.le_snd_of_mem_zipIdx hb) hsite hsite'

/-- The sites of a tree are listed in the order of their paths, none of them twice. -/
theorem sorted_sites (e : Expr) : Sorted e.sites := by
  induction e using operand_induction with
  | step e ih =>
    rw [sites_eq, Sorted, List.map_cons, List.pairwise_cons]
    refine ⟨?_, sorted_below e.operands 0 ih⟩
    simp only [List.forall_mem_map]
    intro site hsite
    obtain ⟨⟨b, j⟩, -, hsite⟩ := List.mem_flatMap.mp hsite
    exact nil_lt_of_mem_inOperand hsite

/-! ## The number of sites -/

/-- A tree has as many sites as nodes. -/
theorem length_sites (e : Expr) : e.sites.length = e.size := by
  induction e with
  | leaf l => rfl
  | unary op a iha => simp [sites, size, inOperand, iha, Nat.add_comm]
  | binary op a b iha ihb => simp [sites, size, inOperand, iha, ihb, Nat.add_comm]
  | ternary op a b c iha ihb ihc =>
    simp only [sites, size, inOperand, List.length_cons, List.length_append, List.length_map, iha,
      ihb, ihc]
    omega
  | quaternary op a b c d iha ihb ihc ihd =>
    simp only [sites, size, inOperand, List.length_cons, List.length_append, List.length_map, iha,
      ihb, ihc, ihd]
    omega

/-- Whether all nodes of a tree declare a kind. -/
def AllDeclare (e : Expr) : Prop :=
  ∀ site ∈ e.sites, ∃ l, site.2.declaredKind = .ok l

theorem rootCount_eq {l : Kind} (h : e.declaredKind = .ok l) (k : Kind) :
    rootCount k e = .ok (if e.declaredKind = .ok k then 1 else 0) := by
  unfold rootCount
  rw [h]
  simp [bind, Except.bind, pure, Except.pure]

theorem countP_inOperand (p : Expr → Bool) (i : ℕ) (sites : List (Path × Expr)) :
    ((inOperand i sites).countP fun site => p site.2) = sites.countP fun site => p site.2 := by
  simp [inOperand, List.countP_map, Function.comp_def]

/-- The nodes that are counted of a kind are the sites of the kind. -/
theorem countOf_eq_countP (k : Kind) (h : e.AllDeclare) :
    e.countOf k = .ok (e.sites.countP fun site => site.2.declaredKind = .ok k) := by
  have hbelow := countP_inOperand fun a => decide (a.declaredKind = .ok k)
  induction e with
  | leaf l =>
    rw [countOf, rootCount_eq rfl]
    simp [sites, List.countP_cons]
  | unary op a iha =>
    simp only [AllDeclare, sites, inOperand, List.forall_mem_cons, List.forall_mem_map] at h
    obtain ⟨⟨l, hl⟩, ha⟩ := h
    simp only [countOf, rootCount_eq hl, iha ha, bind, Except.bind, pure, Except.pure]
    simp only [sites, List.countP_cons, hbelow, decide_eq_true_eq]
    rw [Nat.add_comm]
  | binary op a b iha ihb =>
    simp only [AllDeclare, sites, inOperand, List.forall_mem_cons, List.forall_mem_append,
      List.forall_mem_map] at h
    obtain ⟨⟨l, hl⟩, ha, hb⟩ := h
    simp only [countOf, rootCount_eq hl, iha ha, ihb hb, bind, Except.bind, pure, Except.pure]
    simp only [sites, List.countP_cons, List.countP_append, hbelow, decide_eq_true_eq]
    rw [Nat.add_comm]
  | ternary op a b c iha ihb ihc =>
    simp only [AllDeclare, sites, inOperand, List.forall_mem_cons, List.forall_mem_append,
      List.forall_mem_map] at h
    obtain ⟨⟨l, hl⟩, ⟨ha, hb⟩, hc⟩ := h
    simp only [countOf, rootCount_eq hl, iha ha, ihb hb, ihc hc, bind, Except.bind, pure, Except.pure]
    simp only [sites, List.countP_cons, List.countP_append, hbelow, decide_eq_true_eq]
    rw [Nat.add_comm]
  | quaternary op a b c d iha ihb ihc ihd =>
    simp only [AllDeclare, sites, inOperand, List.forall_mem_cons, List.forall_mem_append,
      List.forall_mem_map] at h
    obtain ⟨⟨l, hl⟩, ⟨⟨ha, hb⟩, hc⟩, hd⟩ := h
    simp only [countOf, rootCount_eq hl, iha ha, ihb hb, ihc hc, ihd hd, bind, Except.bind, pure,
      Except.pure]
    simp only [sites, List.countP_cons, List.countP_append, hbelow, decide_eq_true_eq]
    rw [Nat.add_comm]

/-- Over sites that all have a kind, the counts of the five kinds add up to their number. -/
theorem sum_countP_kinds {sites : List (Path × Expr)}
    (h : ∀ site ∈ sites, ∃ l, site.2.declaredKind = .ok l) :
    (Kind.all.map fun k => sites.countP fun site => site.2.declaredKind = .ok k).sum =
      sites.length := by
  induction sites with
  | nil => rfl
  | cons site sites ih =>
    obtain ⟨k, hk⟩ := h site List.mem_cons_self
    have hone : (Kind.all.map fun l => if k = l then 1 else 0).sum = 1 := by
      cases k <;> rfl
    have hrest := ih fun s hs => h s (List.mem_cons_of_mem site hs)
    simp only [List.countP_cons, hk, Except.ok.injEq, decide_eq_true_eq, List.sum_map_add, hone,
      hrest, List.length_cons]

section Kinds

variable (h : e.HasKind k)

include h

/-- A site of a well-typed tree declares the kind it has. -/
theorem HasKind.declaredKind_iff {site : Path × Expr} (hsite : site ∈ e.sites) (l : Kind) :
    site.2.declaredKind = .ok l ↔ site.2.check = .ok l := by
  obtain ⟨m, hm⟩ := h.at? site.1 (at?_of_mem_sites hsite)
  rw [hm.declaredKind, show site.2.check = .ok m from hm, Except.ok.injEq, Except.ok.injEq]

/-- The sites of a kind in a well-typed tree are those that check as this kind. -/
theorem HasKind.sitesOf_eq (l : Kind) :
    e.sitesOf l = .ok (e.sites.filter fun site => site.2.check = .ok l) := by
  refine filterM_eq_filter fun site hsite => ?_
  obtain ⟨m, hm⟩ := h.at? site.1 (at?_of_mem_sites hsite)
  rw [hm.declaredKind, show site.2.check = .ok m from hm]
  simp [Except.map, beq_eq_decide]

theorem HasKind.allDeclare : e.AllDeclare := fun site hsite => by
  obtain ⟨l, hl⟩ := h.at? site.1 (at?_of_mem_sites hsite)
  exact ⟨l, hl.declaredKind⟩

/-- The nodes counted of a kind in a well-typed tree are the sites that check as this kind. -/
theorem HasKind.countOf_eq (l : Kind) :
    e.countOf l = .ok (e.sites.filter fun site => site.2.check = .ok l).length := by
  rw [countOf_eq_countP l h.allDeclare, ← List.countP_eq_length_filter]
  refine congrArg Except.ok (List.countP_congr fun site hsite => ?_)
  simp only [decide_eq_true_eq, h.declaredKind_iff hsite]

end Kinds

/-! ## Operands exchanged -/

theorem operands_setOperand (e : Expr) (i : ℕ) (b : Expr) :
    (e.setOperand i b).operands = e.operands.set i b := by
  cases e with
  | leaf l => rfl
  | unary op x => rcases i with _ | i <;> rfl
  | binary op x y => rcases i with _ | _ | i <;> rfl
  | ternary op x y z => rcases i with _ | _ | _ | i <;> rfl
  | quaternary op x y z w => rcases i with _ | _ | _ | _ | i <;> rfl

theorem operand_setOperand (h : e.operands[i]? = some a) (b : Expr) :
    (e.setOperand i b).operands[i]? = some b := by
  obtain ⟨hi, -⟩ := List.getElem?_eq_some_iff.mp h
  rw [operands_setOperand, List.getElem?_set_self hi]

theorem setOperand_self (h : e.operands[i]? = some a) : e.setOperand i a = e := by
  cases e with
  | leaf l => rfl
  | unary op x => rcases i with _ | i <;> cases h; rfl
  | binary op x y => rcases i with _ | _ | i <;> cases h <;> rfl
  | ternary op x y z => rcases i with _ | _ | _ | i <;> cases h <;> rfl
  | quaternary op x y z w => rcases i with _ | _ | _ | _ | i <;> cases h <;> rfl

theorem size_setOperand (h : e.operands[i]? = some a) (b : Expr) :
    (e.setOperand i b).size + a.size = e.size + b.size := by
  cases e with
  | leaf l => cases h
  | unary op x =>
    rcases i with _ | i <;> cases h
    simp only [setOperand, size]
    omega
  | binary op x y => rcases i with _ | _ | i <;> cases h <;> simp only [setOperand, size] <;> omega
  | ternary op x y z =>
    rcases i with _ | _ | _ | i <;> cases h <;> simp only [setOperand, size] <;> omega
  | quaternary op x y z w =>
    rcases i with _ | _ | _ | _ | i <;> cases h <;> simp only [setOperand, size] <;> omega

/-! ## Splicing -/

theorem at?_cons_eq_some_iff :
    e.at? (i :: path) = some a ↔ ∃ b, e.operands[i]? = some b ∧ b.at? path = some a := by
  rw [at?, Option.bind_eq_some_iff]

theorem replace?_cons_eq_some_iff :
    e.replace? r (i :: path) = some e' ↔
      ∃ a b, e.operands[i]? = some a ∧ a.replace? r path = some b ∧ e.setOperand i b = e' := by
  simp [replace?, Option.bind_eq_some_iff]

/-- A tree can be put wherever there is a site. -/
theorem exists_replace?_iff (e r : Expr) (path : Path) :
    (∃ e', e.replace? r path = some e') ↔ ∃ a, e.at? path = some a := by
  induction path generalizing e with
  | nil => simp [replace?, at?]
  | cons i rest ih =>
    simp only [replace?_cons_eq_some_iff, at?_cons_eq_some_iff]
    constructor
    · rintro ⟨-, a, b, ha, hb, -⟩
      obtain ⟨c, hc⟩ := (ih a).mp ⟨b, hb⟩
      exact ⟨c, a, ha, hc⟩
    · rintro ⟨c, a, ha, hc⟩
      obtain ⟨b, hb⟩ := (ih a).mpr ⟨c, hc⟩
      exact ⟨_, a, b, ha, hb, rfl⟩

theorem at?_of_replace? (h : e.replace? r path = some e') : e'.at? path = some r := by
  induction path generalizing e e' with
  | nil =>
    cases h
    rfl
  | cons i rest ih =>
    obtain ⟨a, b, ha, hb, rfl⟩ := replace?_cons_eq_some_iff.mp h
    exact at?_cons_eq_some_iff.mpr ⟨b, operand_setOperand ha b, ih hb⟩

/-- Sites neither above nor below the path stay. -/
theorem at?_of_replace?_of_not_prefix (h : e.replace? r path = some e')
    (hbelow : ¬path <+: other) (habove : ¬other <+: path) : e'.at? other = e.at? other := by
  induction path generalizing e e' other with
  | nil => exact absurd List.nil_prefix hbelow
  | cons i rest ih =>
    obtain ⟨a, b, ha, hb, rfl⟩ := replace?_cons_eq_some_iff.mp h
    cases other with
    | nil => exact absurd List.nil_prefix habove
    | cons j other =>
      rw [List.cons_prefix_cons] at hbelow habove
      by_cases hij : i = j
      · subst hij
        rw [at?, at?, operand_setOperand ha b, ha]
        exact ih hb (fun hp => hbelow ⟨rfl, hp⟩) (fun hp => habove ⟨rfl, hp⟩)
      · rw [at?, at?, operands_setOperand, List.getElem?_set_ne hij]

/-- A site put in its own place gives the tree itself. -/
theorem replace?_at? (h : e.at? path = some a) : e.replace? a path = some e := by
  induction path generalizing e with
  | nil =>
    cases h
    rfl
  | cons i rest ih =>
    obtain ⟨b, hb, hrest⟩ := at?_cons_eq_some_iff.mp h
    exact replace?_cons_eq_some_iff.mpr ⟨b, b, hb, ih hrest, setOperand_self hb⟩

theorem size_of_replace? (h : e.replace? r path = some e') (hat : e.at? path = some a) :
    e'.size + a.size = e.size + r.size := by
  induction path generalizing e e' with
  | nil =>
    cases h
    cases hat
    exact Nat.add_comm _ _
  | cons i rest ih =>
    obtain ⟨x, y, hx, hy, rfl⟩ := replace?_cons_eq_some_iff.mp h
    obtain ⟨z, hz, hrest⟩ := at?_cons_eq_some_iff.mp hat
    cases hx.symm.trans hz
    have hroot : (e.setOperand i y).size + x.size = e.size + y.size := size_setOperand hx y
    have hoperand : y.size + a.size = x.size + r.size := ih hy hrest
    omega

/-- Whether `e'` is the tree `e` with the tree `r` in the place of the site `a` at a path. -/
structure Spliced (e : Expr) (path : Path) (a r e' : Expr) : Prop where
  /-- The tree stands at the path. -/
  placed : e'.at? path = some r
  /-- What stands at a path that leads elsewhere stays. -/
  elsewhere : ∀ other, ¬path <+: other → ¬other <+: path → e'.at? other = e.at? other
  size : (e'.size : ℤ) = e.size - a.size + r.size
  /-- A tree of the same kind keeps the kind of the whole. -/
  kind : ∀ {j k}, e.HasKind k → a.HasKind j → r.HasKind j → e'.HasKind k

theorem spliced_of_replace? (h : e.replace? r path = some e') (hat : e.at? path = some a) :
    Spliced e path a r e' where
  placed := at?_of_replace? h
  elsewhere _ hbelow habove := at?_of_replace?_of_not_prefix h hbelow habove
  size := by
    have hsize := size_of_replace? h hat
    omega
  kind hk ha hr := by
    obtain ⟨e'', he'', hk''⟩ := ha.replace? hr path hk hat
    cases h.symm.trans he''
    exact hk''

/-- The sites of a tree are its paths with what is found there, in the order of the paths, none of them
twice, and as many as nodes.  In a well-typed tree the sites of a kind are those that check as it; they
are as many as the nodes counted of that kind, and the five counts add up to the size.  At each site
another tree can be put, and the site itself put in its place changes nothing. -/
theorem sites_and_splices (e : Expr) :
    (∀ path a, (path, a) ∈ e.sites ↔ e.at? path = some a) ∧
    Sorted e.sites ∧ e.sites.length = e.size ∧
    (∀ k, e.HasKind k → ∃ count : Kind → ℕ,
      (∀ j, e.countOf j = .ok (count j) ∧ ∃ sites, e.sitesOf j = .ok sites ∧
        sites = e.sites.filter (fun site => site.2.check = .ok j) ∧ sites.length = count j) ∧
      (Kind.all.map count).sum = e.size) ∧
    ∀ path a, e.at? path = some a → e.replace? a path = some e ∧
      ∀ r, ∃ e', e.replace? r path = some e' ∧ Spliced e path a r e' := by
  refine ⟨fun path a => mem_sites_iff, sorted_sites e, length_sites e, fun k h => ?_,
    fun path a hat => ⟨replace?_at? hat, fun r => ?_⟩⟩
  · refine ⟨fun j => (e.sites.filter fun site => site.2.check = .ok j).length,
      fun j => ⟨h.countOf_eq j, _, h.sitesOf_eq j, rfl, rfl⟩, ?_⟩
    rw [← length_sites, ← sum_countP_kinds h.allDeclare]
    refine congrArg List.sum (List.map_congr_left fun j _ => ?_)
    exact Except.ok.inj ((h.countOf_eq j).symm.trans (countOf_eq_countP j h.allDeclare))
  · obtain ⟨e', he'⟩ := (exists_replace?_iff e r path).mpr ⟨a, hat⟩
    exact ⟨e', he', spliced_of_replace? he' hat⟩

/-- In `not(day()<held)` the quote of an earlier day takes the place of `held`. -/
theorem sites_and_splices_comparison :
    let held : Expr := .leaf (.variable "held" .integer)
    let e : Expr := .not (.comparison .less (.leaf (.date .day)) held)
    let r : Expr := .binary .lag (.quote .volume) (.leaf (.date .day))
    e.HasKind .boolean ∧ e.at? [0, 1] = some held ∧
      (∃ count : Kind → ℕ, (∀ j, e.countOf j = .ok (count j)) ∧ count .integer = 2 ∧
        (Kind.all.map count).sum = 4) ∧
      ∃ e', e.replace? r [0, 1] = some e' ∧ (e'.size : ℤ) = 6 ∧ e'.HasKind .boolean := by
  intro held e r
  have hkind : e.HasKind .boolean := by rfl
  have hat : e.at? [0, 1] = some held := by rfl
  obtain ⟨-, -, -, hkinds, hsplice⟩ := sites_and_splices e
  obtain ⟨count, hcount, hsum⟩ := hkinds .boolean hkind
  obtain ⟨-, hreplace⟩ := hsplice [0, 1] held hat
  obtain ⟨e', he', hspliced⟩ := hreplace r
  refine ⟨hkind, hat, ⟨count, fun j => (hcount j).1, ?_, hsum⟩, e', he', hspliced.size, ?_⟩
  · exact (Except.ok.inj ((by rfl : e.countOf .integer = .ok 2).symm.trans (hcount .integer).1)).symm
  · exact hspliced.kind hkind (by rfl : held.HasKind .integer) (by rfl : r.HasKind .integer)

end Expr

end TradeRules
