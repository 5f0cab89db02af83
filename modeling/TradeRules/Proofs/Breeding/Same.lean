import TradeRules.Breeding.Generator
import TradeRules.Proofs.Breeding.Yields

/-!
# Generators with the same choices

A choice from a table depends on the entries of positive weight only.  So two generators whose tables have
the same ones make the same trees of the same numbers (`same_tree`).  Their tables of operations need not
agree where no operands grow: past the last level only the comparisons among the names are read.

Where no name has a positive weight, the error lists the names of the table.  `BreedError.withoutNames`
leaves them out, and `Draw.Same` compares what computations come to without them.
-/

namespace TradeRules

open Draw

/-! ## Computations that come to the same -/

/-- An error without the names that there were to choose from. -/
def BreedError.withoutNames : BreedError → BreedError
  | .noChoice _ => .noChoice []
  | e => e

namespace Draw

variable {α β : Type} {m m' : Draw α} {f f' : α → Draw β}

/-- What a run comes to, an error without the names to choose from, and the numbers that are left. -/
def outcome (m : Draw α) (d : Draws) : Except BreedError α × Draws :=
  ((m.run.run d).1.mapError BreedError.withoutNames, (m.run.run d).2)

/-- Whether two computations come to the same on every stream. -/
def Same (m m' : Draw α) : Prop :=
  ∀ d, m.outcome d = m'.outcome d

theorem Same.refl (m : Draw α) : Same m m :=
  fun _ => rfl

theorem Same.bind (hm : Same m m') (hf : ∀ a, Same (f a) (f' a)) : Same (m >>= f) (m' >>= f') := by
  intro d
  have hd := hm d
  unfold outcome at hd ⊢
  rw [run_bind, run_bind]
  rcases hrun : m.run.run d with ⟨e | a, d₁⟩ <;> rcases hrun' : m'.run.run d with ⟨e' | a', d₂⟩ <;>
    rw [hrun, hrun'] at hd
  · obtain ⟨herror, rfl⟩ := Prod.mk.inj hd
    exact Prod.ext (congrArg Except.error (Except.error.inj herror)) rfl
  · cases hd
  · cases hd
  · cases hd
    exact hf a d₁

theorem Same.ite {c : Prop} [Decidable c] {n n' : Draw α} (h : Same m m') (h' : Same n n') :
    Same (if c then m else n) (if c then m' else n') := by
  split_ifs
  · exact h
  · exact h'

/-- A choice depends on the entries of positive weight only. -/
theorem same_choose {table table' : WeightTable} (h : table.positive = table'.positive) :
    Same (choose table) (choose table') := by
  unfold choose
  rw [h]
  exact Same.ite (fun _ => rfl) (.refl _)

end Draw

/-! ## Tables with the same choices -/

/-- Tables of the same entries of positive weight have the same ones after names are left out. -/
theorem WeightTable.positive_without_congr {table table' : WeightTable} (names : List String)
    (h : table.positive = table'.positive) :
    (table.without names).positive = (table'.without names).positive := by
  have hswap : ∀ table : WeightTable,
      (table.without names).positive = table.positive.without names := fun table => by
    unfold WeightTable.without WeightTable.positive
    rw [List.filter_filter, List.filter_filter]
    exact List.filter_congr fun entry _ => Bool.and_comm _ _
  rw [hswap, hswap, h]

/-- The comparisons among the BOOLEAN operations. -/
def Weights.comparisons (w : Weights) : WeightTable :=
  w.booleanOperations.filter fun entry => (Comparison.ofName? entry.1).isSome

/-- Whether tables give the same choices.  Those of operations only matter where new operands grow. -/
structure Weights.Agree (grows : Prop) (w w' : Weights) : Prop where
  integerLeaves : w.integerLeaves.positive = w'.integerLeaves.positive
  numericOperands : w.numericOperands.positive = w'.numericOperands.positive
  floatQuotes : w.floatQuotes.positive = w'.floatQuotes.positive
  comparisons : w.comparisons.positive = w'.comparisons.positive
  booleanOperations : grows → w.booleanOperations.positive = w'.booleanOperations.positive
  numericOperations : grows → w.numericOperations.positive = w'.numericOperations.positive

/-- A generator with other weights. -/
def Generator.withWeights (g : Generator) (w : Weights) : Generator :=
  { g with weights := w }

/-! ## Operands -/

/-- Whether two supplies follow one model and grow the same. -/
structure Supply.Same (s s' : Supply) : Prop where
  model : s.model = s'.model
  grow : ∀ kind, Draw.Same (s.grow kind) (s'.grow kind)

theorem Supply.same_operand {s s' : Supply} (hs : s.Same s') (index : Nat) (kind : Kind) :
    Draw.Same (s.operand index kind) (s'.operand index kind) := by
  unfold operand modelled
  rw [hs.model]
  refine Draw.Same.bind (.refl _) fun found => ?_
  cases found with
  | none => exact hs.grow kind
  | some pair => exact .ite (.refl _) (hs.grow kind)

namespace Generator

variable {g : Generator} {w' : Weights} {grows : Prop} {kind : Kind} {s s' : Supply}

section

variable (h : g.weights.Agree grows w')
include h

theorem positive_integerTable :
    g.integerTable.positive = (g.withWeights w').integerTable.positive := by
  unfold integerTable withWeights
  dsimp only
  split_ifs
  · exact h.integerLeaves
  · exact WeightTable.positive_without_congr _ h.integerLeaves
  · exact WeightTable.positive_without_congr _ h.integerLeaves
  · exact WeightTable.positive_without_congr _ (WeightTable.positive_without_congr _ h.integerLeaves)

theorem same_leaf (kind : Kind) : Draw.Same (g.leaf kind) ((g.withWeights w').leaf kind) := by
  cases kind with
  | boolean => exact .refl _
  | integer => exact (same_choose (positive_integerTable h)).bind fun _ => .refl _
  | float => exact .refl _
  | integerQuote => exact .refl _
  | floatQuote => exact (same_choose h.floatQuotes).bind fun _ => .refl _

theorem same_numericKind : Draw.Same g.numericKind (g.withWeights w').numericKind :=
  (same_choose h.numericOperands).bind fun _ => .refl _

theorem same_numericOperand (hs : s.Same s') (index : Nat) :
    Draw.Same (g.numericOperand s index) ((g.withWeights w').numericOperand s' index) := by
  have hgrow : Draw.Same (do s.grow (← g.numericKind))
      (do s'.grow (← (g.withWeights w').numericKind)) :=
    (same_numericKind h).bind fun k => hs.grow k
  unfold numericOperand Supply.modelled
  rw [hs.model]
  refine Draw.Same.bind (.refl _) fun found => ?_
  cases found with
  | none => exact hgrow
  | some pair => exact .ite (.refl _) hgrow

theorem same_leafComparison :
    Draw.Same g.leafComparison (g.withWeights w').leafComparison := by
  have hrest : ∀ op, Draw.Same (do
      let kind ← g.numericKind
      let a ← g.leaf kind
      let b ← g.leaf kind
      return Expr.comparison op a b) (do
      let kind ← (g.withWeights w').numericKind
      let a ← (g.withWeights w').leaf kind
      let b ← (g.withWeights w').leaf kind
      return Expr.comparison op a b) := fun op =>
    (same_numericKind h).bind fun k => (same_leaf h k).bind fun a => (same_leaf h k).bind fun b =>
      .refl _
  have hcomparisons := h.comparisons
  unfold Weights.comparisons at hcomparisons
  unfold leafComparison
  dsimp only [withWeights]
  rw [hcomparisons]
  refine Draw.Same.ite ((Draw.Same.refl _).bind hrest) ?_
  exact (same_choose hcomparisons).bind fun _ => (Draw.Same.refl _).bind hrest

theorem same_quote (kind : Kind) : Draw.Same (g.quote kind) ((g.withWeights w').quote kind) :=
  same_leaf h _

theorem same_compared (hs : s.Same s') :
    Draw.Same (g.compared s) ((g.withWeights w').compared s') :=
  (same_numericOperand h hs 0).bind fun _ => (Draw.Same.refl _).bind fun k =>
    (Supply.same_operand hs 1 k).bind fun _ => .refl _

theorem same_booleanNode (hs : s.Same s') (hgrows : grows) :
    Draw.Same (g.booleanNode s) ((g.withWeights w').booleanNode s') := by
  refine (same_choose (h.booleanOperations hgrows)).bind fun name => ?_
  cases BooleanOperation.ofName? name with
  | none => exact (same_compared h hs).bind fun _ => .refl _
  | some op =>
    cases op with
    | not => exact (Supply.same_operand hs 0 .boolean).bind fun _ => .refl _
    | connective op =>
      exact (Supply.same_operand hs 0 .boolean).bind fun _ =>
        (Supply.same_operand hs 1 .boolean).bind fun _ => .refl _
    | comparison op => exact (same_compared h hs).bind fun _ => .refl _

theorem same_operation (hs : s.Same s') :
    ∀ op, Draw.Same (g.operation kind s op) ((g.withWeights w').operation kind s' op)
  | .leaf => same_leaf h kind
  | .unary _ => (Supply.same_operand hs 0 kind).bind fun _ => .refl _
  | .arithmetic _ =>
    (Supply.same_operand hs 0 kind).bind fun _ => (Supply.same_operand hs 1 kind).bind fun _ =>
      .refl _
  | .percent =>
    (Supply.same_operand hs 0 kind).bind fun _ => (same_numericOperand h hs 1).bind fun _ => .refl _
  | .choice =>
    (Supply.same_operand hs 0 .boolean).bind fun _ => (Supply.same_operand hs 1 kind).bind fun _ =>
      (Supply.same_operand hs 2 kind).bind fun _ => .refl _
  | .lag =>
    (same_quote h kind).bind fun _ => (Supply.same_operand hs 1 .integer).bind fun _ => .refl _
  | .statistic _ =>
    (same_quote h kind).bind fun _ => (Supply.same_operand hs 1 .integer).bind fun _ =>
      (Supply.same_operand hs 2 .integer).bind fun _ => .refl _
  | .ema =>
    (same_quote h kind).bind fun _ => (Supply.same_operand hs 1 .integer).bind fun _ =>
      (Supply.same_operand hs 2 .integer).bind fun _ => .refl _
  | .rsi =>
    (Supply.same_operand hs 0 .integer).bind fun _ => (Supply.same_operand hs 1 .integer).bind fun _ =>
      .refl _
  | .correlation =>
    (Draw.Same.refl _).bind fun _ => (same_quote h kind).bind fun _ =>
      (Supply.same_operand hs 1 .integer).bind fun _ =>
        (Supply.same_operand hs 2 .integer).bind fun _ => .refl _

theorem same_numericNode (hs : s.Same s') (hgrows : grows) :
    Draw.Same (g.numericNode kind s) ((g.withWeights w').numericNode kind s') := by
  have htable : (g.numericTable kind).positive = ((g.withWeights w').numericTable kind).positive := by
    unfold numericTable withWeights
    dsimp only
    split_ifs
    · exact WeightTable.positive_without_congr _ (WeightTable.positive_without_congr _ (h.numericOperations hgrows))
    · exact WeightTable.positive_without_congr _ (h.numericOperations hgrows)
    · exact WeightTable.positive_without_congr _ (h.numericOperations hgrows)
    · exact h.numericOperations hgrows
  refine (same_choose htable).bind fun name => ?_
  cases NumericOperation.ofName? name with
  | none => exact .refl _
  | some op => exact same_operation h hs op

/-! ## Trees -/

variable {model : Option Expr} {grow grow' : Option (Kind → Draw Expr)}

theorem same_branchWith (hgrow : Option.Rel (fun f f' => ∀ kind, Draw.Same (f kind) (f' kind)) grow grow')
    (hgrows : grow ≠ none → grows) :
    Draw.Same (g.branchWith kind model grow) ((g.withWeights w').branchWith kind model grow') := by
  unfold branchWith
  refine Draw.Same.ite ?_ (Draw.Same.ite ((Draw.Same.refl _).bind fun found => ?_) (same_leaf h kind))
  · cases hgrow with
    | none => exact same_leafComparison h
    | some hgrow => exact same_booleanNode h ⟨rfl, hgrow⟩ (hgrows nofun)
  · cases found with
    | some e => exact .refl _
    | none =>
      cases hgrow with
      | none => exact same_leaf h kind
      | some hgrow => exact same_numericNode h ⟨rfl, hgrow⟩ (hgrows nofun)

theorem same_treeWith (level : Int)
    (hgrow : Option.Rel (fun f f' => ∀ kind, Draw.Same (f kind) (f' kind)) grow grow')
    (hgrows : grow ≠ none → grows) :
    Draw.Same (g.treeWith kind level model grow)
      ((g.withWeights w').treeWith kind level model grow') :=
  (Draw.Same.refl _).bind fun _ => .ite (same_branchWith h hgrow hgrows) (same_leaf h kind)

/-- New operands are the same, however many levels are left, if any names are where they grow. -/
theorem same_operandsAt (room : Nat) (level : Int) (hgrows : room ≠ 0 → grows) :
    Option.Rel (fun f f' => ∀ kind, Draw.Same (f kind) (f' kind)) (g.operandsAt room level)
      ((g.withWeights w').operandsAt room level) := by
  induction room generalizing level with
  | zero => exact .none
  | succ room ih =>
    exact .some fun kind => same_treeWith h level (ih (level + 1) fun _ => hgrows nofun)
      fun _ => hgrows nofun

theorem same_tree (level : Int) (hgrows : level < g.settings.maxLevel → grows) :
    Draw.Same (g.tree kind level model) ((g.withWeights w').tree kind level model) := by
  have hroom : g.room (level + 1) ≠ 0 → grows := fun hroom => hgrows (by unfold room at hroom; omega)
  refine same_treeWith h level (same_operandsAt h _ _ hroom) fun hgrow => hroom fun hzero => hgrow ?_
  rw [hzero]
  rfl

end

end Generator

end TradeRules
