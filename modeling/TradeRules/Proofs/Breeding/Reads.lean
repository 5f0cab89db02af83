import TradeRules.Breeding.Mutation
import TradeRules.Proofs.Breeding.Yields

/-!
# Random computations read the stream in order

A computation takes its numbers from the stream one after the other.  `Draw.Reads` says what follows: the
stream is not changed, nothing is taken back, and the result depends only on the numbers that were taken.
So the numbers that come later can be exchanged after the fact, without a change to what was computed.

All of generation and mutation is of this form, as single random numbers are (`reads_unit`) and as the
form is kept when computations follow each other (`Reads.bind`).  The only computations that give up are
those that mutate round after round, and they are left out.
-/

namespace TradeRules

namespace Draw

variable {α β : Type} {m : Draw α} {r : Except BreedError α} {d d' d₁ : Draws}

/-- Whether a computation goes forward in the stream, depends only on the numbers that it takes, and does
not give up. -/
structure Reads (m : Draw α) : Prop where
  stream : ∀ d, (m.run.run d).2.stream = d.stream
  forward : ∀ d, d.count ≤ (m.run.run d).2.count
  bounded : ∀ d, (m.run.run d).1 ≠ .error .endless
  same : ∀ d d', d'.count = d.count →
    (∀ i < (m.run.run d).2.count, d'.stream i = d.stream i) →
    (m.run.run d').1 = (m.run.run d).1 ∧ (m.run.run d').2.count = (m.run.run d).2.count

/-! ## Runs -/

namespace Reads

theorem stream_eq (h : Reads m) (hrun : m.run.run d = (r, d₁)) : d₁.stream = d.stream := by
  have hstream := h.stream d
  rwa [hrun] at hstream

theorem count_le (h : Reads m) (hrun : m.run.run d = (r, d₁)) : d.count ≤ d₁.count := by
  have hforward := h.forward d
  rwa [hrun] at hforward

theorem ne_endless (h : Reads m) (hrun : m.run.run d = (r, d₁)) : r ≠ .error .endless := by
  have hbounded := h.bounded d
  rwa [hrun] at hbounded

/-- A run on exchanged numbers. -/
theorem exchange (h : Reads m) (hrun : m.run.run d = (r, d₁)) (hcount : d'.count = d.count)
    (hagree : ∀ i < d₁.count, d'.stream i = d.stream i) :
    ∃ d₁', m.run.run d' = (r, d₁') ∧ d₁'.count = d₁.count := by
  have hsame := h.same d d' hcount
  rw [hrun] at hsame
  obtain ⟨hresult, hcount₁⟩ := hsame hagree
  exact ⟨(m.run.run d').2, Prod.ext hresult rfl, hcount₁⟩

end Reads

/-! ## Structure -/

theorem Reads.pure (a : α) : Reads (pure a : Draw α) where
  stream _ := rfl
  forward _ := Nat.le_refl _
  bounded _ := nofun
  same _ _ hcount _ := ⟨rfl, hcount⟩

theorem Reads.throw {e : BreedError} (he : e ≠ .endless) : Reads (throw e : Draw α) where
  stream _ := rfl
  forward _ := Nat.le_refl _
  bounded _ h := he (Except.error.inj h)
  same _ _ hcount _ := ⟨rfl, hcount⟩

/-- The second computation starts where the first one ends. -/
theorem Reads.bind {f : α → Draw β} (hm : Reads m) (hf : ∀ a, Reads (f a)) : Reads (m >>= f) where
  stream d := by
    rcases hrun : m.run.run d with ⟨e | a, d₁⟩
    · rw [run_bind_of_error hrun]
      exact hm.stream_eq hrun
    · rw [run_bind_of_ok hrun]
      exact ((hf a).stream d₁).trans (hm.stream_eq hrun)
  forward d := by
    rcases hrun : m.run.run d with ⟨e | a, d₁⟩
    · rw [run_bind_of_error hrun]
      exact hm.count_le hrun
    · rw [run_bind_of_ok hrun]
      exact Nat.le_trans (hm.count_le hrun) ((hf a).forward d₁)
  bounded d := by
    rcases hrun : m.run.run d with ⟨e | a, d₁⟩
    · rw [run_bind_of_error hrun]
      exact fun herror => hm.ne_endless hrun (congrArg Except.error (Except.error.inj herror))
    · rw [run_bind_of_ok hrun]
      exact (hf a).bounded d₁
  same d d' hcount hagree := by
    rcases hrun : m.run.run d with ⟨e | a, d₁⟩
    · rw [run_bind_of_error hrun] at hagree ⊢
      obtain ⟨d₁', hrun', hcount₁⟩ := hm.exchange hrun hcount hagree
      rw [run_bind_of_error hrun']
      exact ⟨rfl, hcount₁⟩
    · rw [run_bind_of_ok hrun] at hagree ⊢
      obtain ⟨d₁', hrun', hcount₁⟩ := hm.exchange hrun hcount fun i hi =>
        hagree i (Nat.lt_of_lt_of_le hi ((hf a).forward d₁))
      rw [run_bind_of_ok hrun']
      refine (hf a).same d₁ d₁' hcount₁ fun i hi => ?_
      rw [hm.stream_eq hrun', hm.stream_eq hrun]
      exact hagree i hi

theorem Reads.ite {c : Prop} [Decidable c] {m' : Draw α} (h : Reads m) (h' : Reads m') :
    Reads (if c then m else m') := by
  split_ifs
  · exact h
  · exact h'

/-! ## Random choices -/

theorem reads_unit : Reads unit where
  stream _ := rfl
  forward _ := Nat.le_succ _
  bounded _ := nofun
  same d d' hcount hagree := by
    refine ⟨congrArg Except.ok ?_, congrArg (· + 1) hcount⟩
    show d'.stream d'.count = d.stream d.count
    rw [hcount]
    exact hagree d.count (Nat.lt_succ_self _)

theorem reads_built (r : Except BuildError α) : Reads (built r) := by
  cases r with
  | ok a => exact Reads.pure a
  | error e => exact Reads.throw (e := .build e) nofun

theorem reads_below (n : Nat) : Reads (below n) :=
  reads_unit.bind fun _ => Reads.pure _

theorem reads_pick (first : α) (rest : List α) : Reads (pick first rest) :=
  (reads_below _).bind fun _ => Reads.pure _

theorem reads_weighted (table : WeightTable) : Reads (weighted table) := by
  unfold weighted
  split
  · exact Reads.throw nofun
  · exact Reads.ite (Reads.throw nofun) <| Reads.ite (Reads.throw nofun) <|
      reads_unit.bind fun _ => Reads.pure _

theorem reads_choose (table : WeightTable) : Reads (choose table) :=
  Reads.ite (Reads.throw nofun) (reads_weighted _)

end Draw

open Draw

/-! ## Operands -/

namespace Supply

variable {s : Supply}

theorem reads_modelled (s : Supply) (index : Nat) : Reads (s.modelled index) := by
  unfold modelled
  split
  · exact Reads.pure _
  · exact (reads_built _).bind fun _ => Reads.pure _

theorem reads_operand (hs : ∀ kind, Reads (s.grow kind)) (index : Nat) (kind : Kind) :
    Reads (s.operand index kind) := by
  refine (reads_modelled s index).bind fun found => ?_
  cases found with
  | none => exact hs kind
  | some pair => exact Reads.ite (Reads.pure _) (hs kind)

end Supply

namespace Generator

variable {g : Generator} {s : Supply}

/-! ## Leaves -/

theorem reads_literal (kind : Kind) (value : Numeral) : Reads (literal kind value) :=
  (reads_built _).bind fun _ => Reads.pure _

theorem reads_leaf (g : Generator) (kind : Kind) : Reads (g.leaf kind) := by
  cases kind with
  | boolean => exact (reads_below 2).bind fun _ => Reads.pure _
  | float => exact reads_unit.bind fun _ => reads_literal _ _
  | integer =>
    refine (reads_choose _).bind fun name => ?_
    cases IntegerLeaf.ofName? name with
    | none => exact Reads.throw nofun
    | some leaf =>
      cases leaf with
      | number => exact (reads_below _).bind fun _ => reads_literal _ _
      | held => exact Reads.pure _
      | order => exact Reads.pure _
      | date part => exact Reads.pure _
  | floatQuote => exact (reads_choose _).bind fun _ => reads_built _
  | integerQuote => exact Reads.pure _

theorem reads_numericKind (g : Generator) : Reads g.numericKind :=
  (reads_choose _).bind fun _ => Reads.pure _

theorem reads_numericOperand (hs : ∀ kind, Reads (s.grow kind)) (index : Nat) :
    Reads (g.numericOperand s index) := by
  have hgrow : Reads (do s.grow (← g.numericKind)) := (reads_numericKind g).bind hs
  refine (Supply.reads_modelled s index).bind fun found => ?_
  cases found with
  | none => exact hgrow
  | some pair => exact Reads.ite (Reads.pure _) hgrow

/-! ## BOOLEAN operations -/

theorem reads_leafComparison (g : Generator) : Reads g.leafComparison := by
  have hrest : ∀ op, Reads (do
      let kind ← g.numericKind
      let a ← g.leaf kind
      let b ← g.leaf kind
      return Expr.comparison op a b) := fun op =>
    (reads_numericKind g).bind fun kind => (reads_leaf g kind).bind fun _ =>
      (reads_leaf g kind).bind fun _ => Reads.pure _
  unfold leafComparison
  dsimp only
  split_ifs
  · exact (Reads.pure _).bind hrest
  · exact (reads_choose _).bind fun _ => (Reads.pure _).bind hrest

theorem reads_compared (hs : ∀ kind, Reads (s.grow kind)) : Reads (g.compared s) :=
  (reads_numericOperand hs 0).bind fun _ => (reads_built _).bind fun kind =>
    (Supply.reads_operand hs 1 kind).bind fun _ => Reads.pure _

theorem reads_booleanNode (hs : ∀ kind, Reads (s.grow kind)) : Reads (g.booleanNode s) := by
  refine (reads_choose _).bind fun name => ?_
  cases BooleanOperation.ofName? name with
  | none => exact (reads_compared hs).bind fun _ => Reads.throw nofun
  | some op =>
    cases op with
    | not => exact (Supply.reads_operand hs 0 _).bind fun _ => Reads.pure _
    | connective op =>
      exact (Supply.reads_operand hs 0 _).bind fun _ => (Supply.reads_operand hs 1 _).bind fun _ =>
        Reads.pure _
    | comparison op => exact (reads_compared hs).bind fun _ => Reads.pure _

/-! ## Numeric operations -/

theorem reads_nudge (l : Literal) (kind : Kind) : Reads (nudge l kind) := by
  refine reads_unit.bind fun _ => reads_unit.bind fun _ => ?_
  exact Reads.ite (reads_literal _ _) (reads_literal _ _)

theorem reads_smoothing : Reads smoothing :=
  reads_unit.bind fun _ => reads_literal _ _

theorem reads_partner (g : Generator) : Reads g.partner := by
  unfold partner
  split
  · exact Reads.throw nofun
  · exact (reads_pick _ _).bind fun _ => Reads.pure _

theorem reads_operation (hs : ∀ kind, Reads (s.grow kind)) (kind : Kind) (op : NumericOperation) :
    Reads (g.operation kind s op) := by
  have hoperand : ∀ index kind, Reads (s.operand index kind) := Supply.reads_operand hs
  have hquote : Reads (g.quote kind) := reads_leaf g _
  cases op with
  | leaf => exact reads_leaf g kind
  | unary op => exact (hoperand 0 _).bind fun _ => Reads.pure _
  | arithmetic op =>
    exact (hoperand 0 _).bind fun _ => (hoperand 1 _).bind fun _ => Reads.pure _
  | percent =>
    exact (hoperand 0 _).bind fun _ => (reads_numericOperand hs 1).bind fun _ => Reads.pure _
  | choice =>
    exact (hoperand 0 _).bind fun _ => (hoperand 1 _).bind fun _ => (hoperand 2 _).bind fun _ =>
      Reads.pure _
  | lag => exact hquote.bind fun _ => (hoperand 1 _).bind fun _ => Reads.pure _
  | statistic statistic =>
    exact hquote.bind fun _ => (hoperand 1 _).bind fun _ => (hoperand 2 _).bind fun _ =>
      Reads.pure _
  | ema =>
    exact hquote.bind fun _ => (hoperand 1 _).bind fun _ => (hoperand 2 _).bind fun _ =>
      reads_smoothing.bind fun _ => Reads.pure _
  | rsi => exact (hoperand 0 _).bind fun _ => (hoperand 1 _).bind fun _ => Reads.pure _
  | correlation =>
    exact (reads_partner g).bind fun _ => hquote.bind fun _ => (hoperand 1 _).bind fun _ =>
      (hoperand 2 _).bind fun _ => Reads.pure _

theorem reads_numericNode (hs : ∀ kind, Reads (s.grow kind)) (kind : Kind) :
    Reads (g.numericNode kind s) := by
  refine (reads_choose _).bind fun name => ?_
  cases NumericOperation.ofName? name with
  | none => exact Reads.throw nofun
  | some op => exact reads_operation hs kind op

/-! ## Trees -/

theorem reads_nudged (model : Option Expr) (kind : Kind) : Reads (nudged model kind) := by
  unfold nudged
  split
  · exact (reads_below _).bind fun _ =>
      Reads.ite ((reads_nudge _ _).bind fun _ => Reads.pure _) (Reads.pure _)
  · exact Reads.pure _

variable {grow : Option (Kind → Draw Expr)}

theorem reads_branchWith (hgrow : ∀ f, grow = some f → ∀ kind, Reads (f kind)) (kind : Kind)
    (model : Option Expr) : Reads (g.branchWith kind model grow) := by
  refine Reads.ite ?_ (Reads.ite ((reads_nudged model kind).bind fun found => ?_) (reads_leaf g kind))
  · cases grow with
    | none => exact reads_leafComparison g
    | some f => exact reads_booleanNode (hgrow f rfl)
  · cases found with
    | some e => exact Reads.pure e
    | none =>
      cases grow with
      | none => exact reads_leaf g kind
      | some f => exact reads_numericNode (hgrow f rfl) kind

theorem reads_branches (level : Int) : Reads (branches level) :=
  Reads.ite (Reads.pure _) (reads_unit.bind fun _ => Reads.pure _)

theorem reads_treeWith (hgrow : ∀ f, grow = some f → ∀ kind, Reads (f kind)) (kind : Kind)
    (level : Int) (model : Option Expr) : Reads (g.treeWith kind level model grow) :=
  (reads_branches level).bind fun _ =>
    Reads.ite (reads_branchWith hgrow kind model) (reads_leaf g kind)

/-- New operands read the stream in order, by induction on the number of levels that are left. -/
theorem reads_operandsAt (g : Generator) (room : Nat) (level : Int) :
    ∀ f, g.operandsAt room level = some f → ∀ kind, Reads (f kind) := by
  induction room generalizing level with
  | zero => exact fun f h => by cases h
  | succ room ih =>
    intro f h kind
    cases h
    exact reads_treeWith (ih (level + 1)) kind level none

theorem reads_branch (g : Generator) (kind : Kind) (level : Int) (model : Option Expr) :
    Reads (g.branch kind level model) :=
  reads_branchWith (reads_operandsAt g _ _) kind model

theorem reads_tree (g : Generator) (kind : Kind) (level : Int) (model : Option Expr) :
    Reads (g.tree kind level model) :=
  reads_treeWith (reads_operandsAt g _ _) kind level model

/-! ## Mutations -/

theorem reads_pickSite (sites : List (Path × Expr)) : Reads (pickSite sites) := by
  cases sites with
  | nil => exact Reads.pure _
  | cons site rest => exact (reads_pick site rest).bind fun _ => Reads.pure _

theorem reads_site (e : Expr) : Reads (site e) := by
  refine (reads_pickSite _).bind fun found => ?_
  cases found with
  | none => exact Reads.throw nofun
  | some s => exact Reads.pure s

theorem reads_modifyAt (g : Generator) (e : Expr) (path : Path) (a : Expr) :
    Reads (g.modifyAt e path a) :=
  Reads.ite (reads_smoothing.bind fun _ => Reads.pure _)
    ((reads_built _).bind fun kind => (reads_tree g kind 1 _).bind fun _ => Reads.pure _)

theorem reads_deleteAt (g : Generator) (e : Expr) (path : Path) (a : Expr) :
    Reads (g.deleteAt e path a) :=
  Reads.ite (reads_modifyAt g e path a)
    ((reads_built _).bind fun kind => (reads_leaf g kind).bind fun _ => Reads.pure _)

theorem reads_slots (kind : Kind) (e : Expr) : Reads (slots kind e) :=
  (reads_built _).bind fun _ => Reads.pure _

theorem reads_wrap (g : Generator) (a : Expr) (kind : Kind) (level : Int) (attempts : Nat) :
    Reads (g.wrap a kind level attempts) := by
  induction attempts with
  | zero => exact Reads.pure _
  | succ attempts ih =>
    refine (reads_branch g kind level none).bind fun wrapper =>
      (reads_slots kind wrapper).bind fun is => ?_
    cases is with
    | nil => exact ih
    | cons slot rest => exact (reads_pick slot rest).bind fun _ => Reads.pure _

theorem reads_insertAt (g : Generator) (e : Expr) (path : Path) (a : Expr) :
    Reads (g.insertAt e path a) := by
  refine (reads_built _).bind fun kind => (reads_wrap g a kind _ _).bind fun found => ?_
  cases found with
  | none => exact reads_modifyAt g e path a
  | some r => exact Reads.pure _

theorem reads_mutateOnce (g : Generator) (e : Expr) : Reads (g.mutateOnce e) := by
  have hsite : ∀ f : Path × Expr → Draw Expr, (∀ s, Reads (f s)) → Reads (siteAt e none >>= f) :=
    fun f hf => (reads_site e).bind hf
  refine (reads_choose _).bind fun name => ?_
  split
  · exact hsite _ fun s => reads_insertAt g e s.1 s.2
  · exact hsite _ fun s => reads_deleteAt g e s.1 s.2
  · exact hsite _ fun s => reads_modifyAt g e s.1 s.2

end Generator

end TradeRules
