import TradeRules.Proofs.Breeding.Cross
import TradeRules.Proofs.Rule.Names

/-!
# The names in bred rules

A generator brings two kinds of texts into a tree: the variables that it may read, and the codes of its
symbols (`Generator.naming`).  Its random trees have no others, and neither has a tree that is mutated,
recombined or simplified, when the trees it is made of have none (`named_tree`, `named_mutateWithin`,
`named_recombine`).

The buy rule of a child comes from buy rules, and its sell rule from sell rules.  So each rule has the
names of its own generator (`Rules.Named`).
-/

namespace TradeRules

open Draw

/-- The texts that a generator brings into trees. -/
def Generator.naming (g : Generator) : Naming where
  isVariable name kind := kind = .integer ∧
    (name = Variables.heldName ∧ g.allowHeld = true ∨
      name = Variables.orderName ∧ g.allowOrder = true)
  isPartner partner := partner ∈ g.symbols.map Symbol.code

/-- The name of an INTEGER leaf. -/
def IntegerLeaf.name : IntegerLeaf → String
  | .number => "number"
  | .held => Variables.heldName
  | .order => Variables.orderName
  | .date part => part.word

theorem IntegerLeaf.name_of_ofName? {name : String} {l : IntegerLeaf} (h : ofName? name = some l) :
    name = l.name := by
  unfold ofName? at h
  split_ifs at h with hnumber hheld horder
  · cases h
    exact hnumber
  · cases h
    exact hheld
  · cases h
    exact horder
  · obtain ⟨part, hpart, rfl⟩ := Option.map_eq_some_iff.mp h
    have hword := List.find?_some hpart
    exact (beq_iff_eq.mp hword).symm

namespace Generator

variable {g : Generator} {kind : Kind} {N : Naming}

/-! ## Leaves -/

theorem named_literal (kind : Kind) (value : Numeral) : Yields (literal kind value) (·.Named N) :=
  (yields_built (P := fun _ => True) fun _ _ => trivial).then
    fun l => Yields.pure (Expr.named_number l)

/-- The counting leaves are only chosen when they may be read. -/
theorem allowed_of_integerTable {name : String} (h : name ∈ g.integerTable.names) :
    (name = Variables.heldName → g.allowHeld = true) ∧
      (name = Variables.orderName → g.allowOrder = true) := by
  have hwithout : ∀ (table : WeightTable) (word : String),
      name ∈ (table.without [word]).names → name ≠ word := fun table word hname =>
    List.ne_of_not_mem_cons (mem_names_of_without hname).2
  unfold integerTable at h
  dsimp only at h
  constructor
  · intro hname
    by_contra hheld
    rw [if_neg hheld] at h
    split_ifs at h
    · exact hwithout _ _ h hname
    · exact hwithout _ _ (mem_names_of_without h).1 hname
  · intro hname
    by_contra horder
    rw [if_neg horder] at h
    exact hwithout _ _ h hname

theorem named_leaf (g : Generator) (kind : Kind) : Yields (g.leaf kind) (·.Named g.naming) := by
  cases kind with
  | boolean => exact (yields_below 2).then fun _ => Yields.pure (Expr.named_truth _)
  | integer =>
    refine (yields_choose _).bind fun name hname => ?_
    obtain ⟨hheld, horder⟩ := allowed_of_integerTable hname
    cases hl : IntegerLeaf.ofName? name with
    | none => exact Yields.throw id
    | some l =>
      have hword := IntegerLeaf.name_of_ofName? hl
      cases l with
      | number => exact (yields_below _).then fun _ => named_literal _ _
      | held => exact Yields.pure ⟨rfl, .inl ⟨rfl, hheld hword⟩⟩
      | order => exact Yields.pure ⟨rfl, .inr ⟨rfl, horder hword⟩⟩
      | date part => exact Yields.pure trivial
  | float => exact yields_unit.then fun _ => named_literal _ _
  | integerQuote => exact Yields.pure trivial
  | floatQuote =>
    refine (yields_choose _).bind fun name _ => yields_built fun e he => ?_
    unfold Expr.buildQuote at he
    split at he
    · cases he
      trivial
    · cases he

theorem named_nudge (l : Literal) (kind : Kind) : Yields (nudge l kind) (·.Named N) :=
  yields_unit.then fun _ => yields_unit.then fun _ =>
    Yields.ite (fun _ => named_literal _ _) fun _ => named_literal _ _

theorem named_smoothing : Yields smoothing (·.Named N) :=
  yields_unit.then fun _ => named_literal _ _

/-! ## Trees -/

/-- The trees with given names, whatever kind is asked for. -/
def withNames (N : Naming) : TreeFamily where
  tree _ e := e.Named N
  number kind := kind.isNumeric = true
  boolean _ := True
  numeric _ _ := True

/-- Only leaves and the partners of correlations bring names into a random tree. -/
theorem keeps_withNames (g : Generator) : (withNames g.naming).Keeps g where
  leaf _ := named_leaf g _
  numericKind := yields_numericKind
  isNumeric hk := hk
  declared _ _ hb := hb
  booleanName _ _ := trivial
  greater _ := trivial
  numericName _ _ _ := trivial
  not _ ha := ⟨trivial, ha⟩
  connective _ ha hb := ha.binary hb
  comparison _ _ ha hb := ha.binary hb
  unary _ _ ha := ⟨trivial, ha⟩
  arithmetic _ _ ha hb := ha.binary hb
  percent _ _ _ ha hb := ha.binary hb
  choice _ _ hc ha hb := hc.choice ha hb
  lag _ _ hq ho := hq.binary ho
  statistic _ _ hq hp ho := ⟨trivial, hq, hp, ho⟩
  ema _ _ hq hp ho := ⟨trivial, hq, hp, ho, trivial⟩
  rsi _ hp ho := hp.binary ho
  correlation _ _ hpartner hq hp ho := ⟨hpartner, hq, hp, ho⟩

theorem guides_of_named {m : Expr} (hm : m.Named N) : (withNames N).Guides m where
  operand ha _ := (Expr.named_iff.mp hm).2 _ ha
  number _ _ hk := hk
  nudge _ kind := named_nudge _ kind

variable {model : Option Expr}

theorem named_branch (level : Int) (hmodel : ∀ m, model = some m → m.Named g.naming) :
    Yields (g.branch kind level model) (·.Named g.naming) :=
  (keeps_withNames g).branch level fun m hm => guides_of_named (hmodel m hm)

theorem named_tree (level : Int) (hmodel : ∀ m, model = some m → m.Named g.naming) :
    Yields (g.tree kind level model) (·.Named g.naming) :=
  (keeps_withNames g).tree level fun m hm => guides_of_named (hmodel m hm)

/-! ## Mutations -/

variable {e a r : Expr} {path : Path}

theorem yields_declaredKind (a : Expr) : Yields (Draw.built a.declaredKind) fun _ => True :=
  yields_built fun _ _ => trivial

theorem named_splice {N : Naming} (he : e.Named N) (hr : r.Named N) (path : Path) :
    (splice e path r).Named N := by
  unfold splice
  cases hrep : e.replace? r path with
  | none => exact he
  | some e' => exact he.replace? hr hrep

theorem named_modifyAt (he : e.Named g.naming) (hat : e.at? path = some a) :
    Yields (g.modifyAt e path a) (·.Named g.naming) := by
  refine Yields.ite (fun _ => ?_) fun _ => ?_
  · exact named_smoothing.bind fun _ hr => Yields.pure (named_splice he hr path)
  · refine (yields_declaredKind a).then fun kind => ?_
    refine (named_tree 1 ?_).bind fun _ hr => Yields.pure (named_splice he hr path)
    intro m hm
    cases hm
    exact he.at? hat

theorem named_deleteAt (he : e.Named g.naming) (hat : e.at? path = some a) :
    Yields (g.deleteAt e path a) (·.Named g.naming) :=
  Yields.ite (fun _ => named_modifyAt he hat) fun _ =>
    (yields_declaredKind a).then fun kind =>
      (named_leaf g kind).bind fun _ hr => Yields.pure (named_splice he hr path)

theorem named_wrap (ha : a.Named g.naming) (kind : Kind) (level : Int) (attempts : Nat) :
    Yields (g.wrap a kind level attempts) fun found => ∀ r, found = some r → r.Named g.naming := by
  induction attempts with
  | zero => exact Yields.pure fun _ h => by cases h
  | succ attempts ih =>
    refine (named_branch level fun _ h => by cases h).bind fun wrapper hw => ?_
    have hslots : Yields (slots kind wrapper) fun _ => True :=
      (yields_built (P := fun _ => True) fun _ _ => trivial).then fun _ => Yields.pure trivial
    refine hslots.then fun is => ?_
    cases is with
    | nil => exact ih
    | cons slot rest =>
      refine (yields_pick slot rest).bind fun i _ => Yields.pure fun _ h => ?_
      cases h
      exact hw.setOperand ha i

theorem named_insertAt (he : e.Named g.naming) (hat : e.at? path = some a) :
    Yields (g.insertAt e path a) (·.Named g.naming) := by
  refine (yields_declaredKind a).then fun kind => ?_
  refine (named_wrap (he.at? hat) kind _ _).bind fun found hfound => ?_
  cases found with
  | none => exact named_modifyAt he hat
  | some r => exact Yields.pure (named_splice he (hfound r rfl) path)

theorem named_mutateOnce (he : e.Named g.naming) :
    Yields (g.mutateOnce e) (·.Named g.naming) := by
  refine (yields_choose _).bind fun name _ => ?_
  split
  · exact (yields_siteAt e none).bind fun _ hs => named_insertAt he hs
  · exact (yields_siteAt e none).bind fun _ hs => named_deleteAt he hs
  · exact (yields_siteAt e none).bind fun _ hs => named_modifyAt he hs

theorem named_mutateWithin (rounds : Nat) (percent : Int) (he : e.Named g.naming) :
    Yields (g.mutateWithin rounds percent e) (·.Named g.naming) := by
  induction rounds generalizing percent e with
  | zero => exact Yields.throw id
  | succ rounds ih =>
    refine (yields_below 100).then fun _ => Yields.ite (fun _ => ?_) fun _ => Yields.pure he
    exact (named_mutateOnce he).bind fun _ he' => ih _ he'

/-- Recombination takes a part of the source. -/
theorem named_recombine {N : Naming} (he : e.Named N) (hr : r.Named N) :
    Yields (recombine e r) (·.Named N) := by
  refine (yields_site e).bind fun s _ => ?_
  refine (yields_declaredKind s.2).then fun kind => ?_
  have hsite : Yields (siteOf kind r) fun found => ∀ s, found = some s → s.2.Named N := by
    refine (yields_built (P := fun sites => ∀ s ∈ sites, s.2.Named N) ?_).bind
      fun sites hsites => (yields_pickSite sites).mono fun found hfound s hs =>
        hsites s (hfound s hs)
    intro sites hsites s hs
    exact hr.at? (Expr.at?_of_mem_sites (mem_of_filterM hsites s hs).1)
  refine hsite.bind fun found hfound => ?_
  cases found with
  | none => exact Yields.pure he
  | some b => exact Yields.pure (named_splice he (hfound b rfl) s.1)

end Generator

/-! ## Strategies -/

/-- Whether each rule has the names of its generator. -/
structure Rules.Named (g : Generators) (r : Rules) : Prop where
  buy : r.buy.Named g.buy.naming
  sell : r.sell.Named g.sell.naming

namespace Strategy

variable {g : Generators} {r : Rules} {s : Strategy} {d d' : Draws}

theorem named_of_ofRules (h : r.Named g) (hrun : (ofRules r).run.run d = (.ok s, d')) :
    s.rules.Named g := by
  obtain ⟨hbuy, hsell⟩ := simplify_of_ofRules hrun
  exact ⟨h.buy.simplify hbuy, h.sell.simplify hsell⟩

theorem named_of_random (hrun : (random g).run.run d = (.ok s, d')) : s.rules.Named g := by
  obtain ⟨buy, _, hbuy, hrun⟩ := run_bind_eq_ok hrun
  obtain ⟨sell, _, hsell, hrun⟩ := run_bind_eq_ok hrun
  refine named_of_ofRules ⟨?_, ?_⟩ hrun
  · exact (Generator.named_branch 0 fun _ h => by cases h).ok hbuy
  · exact (Generator.named_branch 0 fun _ h => by cases h).ok hsell

theorem named_forceMutation (h : r.Named g) : Yields (forceMutation g r) (Rules.Named g) := by
  refine (yields_below 3).then fun which => ?_
  refine Yields.iteBind (P := (Expr.Named g.buy.naming ·))
    (fun _ => Generator.named_mutateWithin _ _ h.buy) (fun _ => Yields.pure h.buy) fun buy hbuy => ?_
  exact Yields.iteBind (P := (Expr.Named g.sell.naming ·))
    (fun _ => Generator.named_mutateWithin _ _ h.sell) (fun _ => Yields.pure h.sell)
    fun sell hsell => Yields.pure ⟨hbuy, hsell⟩

theorem named_mayMutate (h : r.Named g) : Yields (mayMutate g r) (Rules.Named g) :=
  (Generator.named_mutateWithin _ _ h.buy).bind fun _ hbuy =>
    (Generator.named_mutateWithin _ _ h.sell).bind fun _ hsell => Yields.pure ⟨hbuy, hsell⟩

theorem named_crossed {father mother : Strategy} (hf : father.rules.Named g)
    (hm : mother.rules.Named g) (c : Cross) :
    Yields (crossed g father mother c) (Rules.Named g) := by
  have hstart : (if c.swapsSell then mother.rules.sell else father.rules.sell).Named g.sell.naming := by
    split_ifs
    · exact hm.sell
    · exact hf.sell
  refine Yields.iteBind (P := (Expr.Named g.buy.naming ·))
    (fun _ => Generator.named_recombine hf.buy hm.buy) (fun _ => Yields.pure hf.buy)
    fun buy hbuy => ?_
  refine Yields.iteBind (P := (Expr.Named g.sell.naming ·))
    (fun _ => Generator.named_recombine hstart hm.sell) (fun _ => Yields.pure hstart)
    fun sell hsell => ?_
  exact Yields.ite (fun _ => named_forceMutation ⟨hbuy, hsell⟩)
    fun _ => named_mayMutate ⟨hbuy, hsell⟩

/-- A child has the names of the generators when its parents have. -/
theorem named_of_breed {settings : BreedingSettings} {father mother : Strategy}
    (hf : father.rules.Named g) (hm : mother.rules.Named g)
    (hrun : (breed g settings father mother).run.run d = (.ok s, d')) : s.rules.Named g := by
  obtain ⟨name, _, -, hrun⟩ := run_bind_eq_ok hrun
  obtain ⟨rules, _, hrules, hrun⟩ := run_bind_eq_ok hrun
  exact named_of_ofRules ((named_crossed hf hm _).ok hrules) hrun

end Strategy

end TradeRules
