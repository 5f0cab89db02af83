import TradeRules.Proofs.Breeding.Ends
import TradeRules.Proofs.Breeding.Offers
import TradeRules.Proofs.Breeding.Same

/-!
# Names that the generator does not know

The tables of a generator may have names that it does not know.  As long as these have no weight they make
no difference: on every stream of numbers the tables with them and the tables without them come to the same
result and leave the same numbers.  Past the last level that holds of the names of operations whatever
weight they have, since only leaves and comparisons are made there.

A name that has a weight may be chosen.  It takes a part of the range of a draw, and then the generator fails
for it (`unknown_name_is_chosen`).  All the same it adds no trees: whatever comes out is a tree that the
tables without the unknown names offer.  Both are said by `unknown_names_add_nothing`.
-/

namespace TradeRules

open Draw

/-! ## Tables with more entries -/

/-- Whether a table comes from another one by adding entries with a property, at any place. -/
inductive WeightTable.Adds (p : String × Float → Prop) : WeightTable → WeightTable → Prop
  | nil : Adds p [] []
  | keep {table table' : WeightTable} (entry : String × Float) :
    Adds p table table' → Adds p (entry :: table) (entry :: table')
  | add {table table' : WeightTable} {entry : String × Float} :
    p entry → Adds p table table' → Adds p table (entry :: table')

namespace WeightTable

variable {p : String × Float → Prop} {q : String × Float → Bool} {table table' : WeightTable}
  {name : String}

theorem Adds.refl (table : WeightTable) : table.Adds p table := by
  induction table with
  | nil => exact .nil
  | cons entry _ ih => exact .keep entry ih

/-- A filter that takes none of the added entries takes the same of both tables. -/
theorem Adds.filter_eq (h : table.Adds p table') (hp : ∀ entry, p entry → q entry = false) :
    table.filter q = table'.filter q := by
  induction h with
  | nil => rfl
  | keep entry _ ih => rw [List.filter_cons, List.filter_cons, ih]
  | add hentry _ ih => rw [ih, List.filter_cons_of_neg (by simp [hp _ hentry])]

theorem Adds.positive_eq (h : table.Adds p table') (hp : ∀ entry, p entry → ¬0.0 < entry.2) :
    table.positive = table'.positive :=
  h.filter_eq fun entry hentry => decide_eq_false (hp entry hentry)

theorem Adds.mem (h : table.Adds p table') {entry : String × Float} (hmem : entry ∈ table) :
    entry ∈ table' := by
  induction h with
  | nil => exact hmem
  | keep first _ ih =>
    rcases List.mem_cons.mp hmem with rfl | hrest
    · exact List.mem_cons_self
    · exact List.mem_cons_of_mem _ (ih hrest)
  | add _ _ ih => exact List.mem_cons_of_mem _ (ih hmem)

theorem Adds.mem_or (h : table.Adds p table') {entry : String × Float} (hmem : entry ∈ table') :
    entry ∈ table ∨ p entry := by
  induction h with
  | nil => exact .inl hmem
  | keep first _ ih =>
    rcases List.mem_cons.mp hmem with rfl | hrest
    · exact .inl List.mem_cons_self
    · exact (ih hrest).imp_left (List.mem_cons_of_mem _)
  | add hfirst _ ih =>
    rcases List.mem_cons.mp hmem with rfl | hrest
    · exact .inr hfirst
    · exact ih hrest

/-- A name that is not added has its weight from before. -/
theorem Adds.weighs (h : table.Adds p table') (hp : ∀ weight, ¬p (name, weight))
    (hname : table'.Weighs name) : table.Weighs name := by
  obtain ⟨weight, hmem, hpos⟩ := hname
  exact ⟨weight, (h.mem_or hmem).resolve_right (hp weight), hpos⟩

/-- A name that is known is not added. -/
theorem Adds.weighs_of_known {α : Type} {read : String → Option α} {granted : Float → Prop} {a : α}
    (h : table.Adds (fun entry => read entry.1 = none ∧ granted entry.2) table')
    (hread : read name = some a) (hname : table'.Weighs name) : table.Weighs name := by
  refine h.weighs (fun weight hadded => ?_) hname
  rw [hread] at hadded
  cases hadded.1

end WeightTable

/-- Whether tables come from others by adding names that the generator does not know, with weights that are
granted: one condition is for the tables of leaves, the other one for those of operations. -/
structure Weights.AddsUnknown (leaf operation : Float → Prop) (w w' : Weights) : Prop where
  integerLeaves : w.integerLeaves.Adds
    (fun entry => IntegerLeaf.ofName? entry.1 = none ∧ leaf entry.2) w'.integerLeaves
  numericOperands : w.numericOperands.Adds
    (fun entry => entry.1 ∉ ["float", "integer"] ∧ leaf entry.2) w'.numericOperands
  floatQuotes : w.floatQuotes.Adds
    (fun entry => Field.ofWord? entry.1 = none ∧ leaf entry.2) w'.floatQuotes
  booleanOperations : w.booleanOperations.Adds
    (fun entry => BooleanOperation.ofName? entry.1 = none ∧ operation entry.2) w'.booleanOperations
  numericOperations : w.numericOperations.Adds
    (fun entry => NumericOperation.ofName? entry.1 = none ∧ operation entry.2) w'.numericOperations

/-! ## Names that add no trees -/

namespace Generator

variable {g : Generator} {w' : Weights} {kind k : Kind} {e : Expr} {leaf operation : Float → Prop}

section

variable (h : g.weights.AddsUnknown leaf operation w')
include h

theorem OffersLeaf.of_unknown {l : IntegerLeaf} (hl : (g.withWeights w').OffersLeaf l) :
    g.OffersLeaf l :=
  ⟨h.integerLeaves.weighs_of_known l.ofName?_name hl.weighs, hl.held, hl.order⟩

theorem OffersBoolean.of_unknown {op : BooleanOperation}
    (hop : (g.withWeights w').OffersBoolean op) : g.OffersBoolean op :=
  h.booleanOperations.weighs_of_known op.ofName?_name hop

theorem OffersNumeric.of_unknown {op : NumericOperation} (hne : op ≠ .unary .not)
    (hop : (g.withWeights w').OffersNumeric op) : g.OffersNumeric op :=
  h.numericOperations.weighs_of_known (NumericOperation.ofName?_name hne) hop

theorem weighs_quote_of_unknown {f : Field} (hf : w'.floatQuotes.Weighs f.word) :
    g.weights.floatQuotes.Weighs f.word :=
  h.floatQuotes.weighs_of_known f.ofWord?_word hf

/-- An unknown name for a kind of operands stands for INTEGER, so that kind has to be offered already. -/
theorem OffersNumber.of_unknown (hk : (g.withWeights w').OffersNumber k)
    (hinteger : g.OffersNumber .integer) : g.OffersNumber k := by
  obtain ⟨rfl, hfloat⟩ | ⟨rfl, -⟩ := hk
  · exact .inl ⟨rfl, h.numericOperands.weighs (fun _ hadded => hadded.1 List.mem_cons_self) hfloat⟩
  · exact hinteger

/-- Unknown names offer no other trees. -/
theorem Offers.of_unknown (hinteger : g.OffersNumber .integer)
    (he : (g.withWeights w').Offers kind e) : g.Offers kind e := by
  induction he with
  | real => exact .real
  | whole hl => exact .whole (hl.of_unknown h)
  | held hl => exact .held (hl.of_unknown h)
  | order hl => exact .order (hl.of_unknown h)
  | date hl => exact .date (hl.of_unknown h)
  | price hf => exact .price (weighs_quote_of_unknown h hf)
  | volume => exact .volume
  | not hop _ iha => exact .not (hop.of_unknown h) iha
  | connective hop _ _ iha ihb => exact .connective (hop.of_unknown h) iha ihb
  | comparison hop hk _ _ iha ihb =>
    exact .comparison (hop.of_unknown h) (hk.of_unknown h hinteger) iha ihb
  | unary hop hne hk _ iha => exact .unary (hop.of_unknown h (by simpa using hne)) hne hk iha
  | arithmetic hop hk _ _ iha ihb => exact .arithmetic (hop.of_unknown h nofun) hk iha ihb
  | percent hop hk hj _ _ iha ihb =>
    exact .percent (hop.of_unknown h nofun) hk (hj.of_unknown h hinteger) iha ihb
  | choice hop hk _ _ _ ihc iha ihb => exact .choice (hop.of_unknown h nofun) hk ihc iha ihb
  | lag hop hk _ _ ihq iho => exact .lag (hop.of_unknown h nofun) hk ihq iho
  | statistic hop hk _ _ _ ihq ihp iho =>
    exact .statistic (hop.of_unknown h nofun) hk ihq ihp iho
  | ema hop hk _ _ _ ihq ihp iho => exact .ema (hop.of_unknown h nofun) hk ihq ihp iho
  | rsi hop _ _ ihp iho => exact .rsi (hop.of_unknown h nofun) ihp iho
  | correlation hop hpartner _ _ _ ihq ihp iho =>
    exact .correlation (hop.of_unknown h nofun) hpartner ihq ihp iho

theorem ReadsPrices.of_unknown (hg : g.ReadsPrices) : (g.withWeights w').ReadsPrices :=
  fun hvolume => hg (weighs_quote_of_unknown h hvolume)

theorem OffersComparison.of_unknown (hg : g.OffersComparison) :
    (g.withWeights w').OffersComparison := by
  obtain ⟨op, weight, hmem, hpos⟩ := hg
  exact ⟨op, weight, h.booleanOperations.mem hmem, hpos⟩

end

end Generator

/-! ## Names that make no difference -/

/-- Names without a weight are no choice, and where nothing grows no names of operations are. -/
theorem Weights.AddsUnknown.agree {w w' : Weights} {last : Prop}
    (h : w.AddsUnknown (fun weight => ¬0.0 < weight) (fun weight => 0.0 < weight → last) w') :
    w.Agree (¬last) w' where
  integerLeaves := h.integerLeaves.positive_eq fun _ hentry => hentry.2
  numericOperands := h.numericOperands.positive_eq fun _ hentry => hentry.2
  floatQuotes := h.floatQuotes.positive_eq fun _ hentry => hentry.2
  comparisons := by
    refine congrArg _ (h.booleanOperations.filter_eq fun entry hentry => ?_)
    cases hname : Comparison.ofName? entry.1 with
    | none => rfl
    | some op =>
      have hunknown := hentry.1
      unfold BooleanOperation.ofName? at hunknown
      rw [hname] at hunknown
      split_ifs at hunknown
      cases hunknown
  booleanOperations hlast :=
    h.booleanOperations.positive_eq fun _ hentry hpos => hlast (hentry.2 hpos)
  numericOperations hlast :=
    h.numericOperations.positive_eq fun _ hentry hpos => hlast (hentry.2 hpos)

namespace Generator

/-- Names that the generator does not know make no difference without a positive weight, and those of
operations make none past the last level either.  With any weights they add no trees, provided that operands
may be INTEGER without them: a tree that comes out is one that the tables offer without them. -/
theorem unknown_names_add_nothing (g : Generator) (w' : Weights) (kind : Kind) (level : ℤ) :
    (g.weights.AddsUnknown (fun weight => ¬0.0 < weight)
        (fun weight => 0.0 < weight → g.settings.maxLevel ≤ level) w' →
      ∀ model, Draw.Same (g.tree kind level model) ((g.withWeights w').tree kind level model)) ∧
    (g.weights.AddsUnknown (fun _ => True) (fun _ => True) w' → g.KnowsQuotes →
      g.OffersComparison → g.OffersNumber .integer → ∀ d d' e,
      ((g.withWeights w').tree kind level none).run.run d = (.ok e, d') → g.Offers kind e) := by
  constructor
  · intro hadds model
    exact same_tree hadds.agree level not_le.mpr
  · intro hadds hg hcomparison hinteger d d' e hrun
    have hoffers := offers_tree (hg.readsPrices.of_unknown hadds)
      (hcomparison.of_unknown hadds) kind level
    exact (hoffers.ok hrun).of_unknown hadds hinteger

/-! ## A name that is chosen -/

/-- A generator with two BOOLEAN operations. -/
def negating : Generator :=
  { weights := { booleanOperations := [("not", 1), ("<", 1)] } }

/-- Its tables with a name that the generator does not know. -/
def exclusive (weight : Float) : Weights :=
  { booleanOperations := [("not", 1), ("<", 1), ("xor", weight)] }

theorem addsUnknown_exclusive {weight : Float} {p q : Float → Prop} (hweight : q weight) :
    negating.weights.AddsUnknown p q (exclusive weight) where
  integerLeaves := .refl _
  numericOperands := .refl _
  floatQuotes := .refl _
  booleanOperations := .keep _ (.keep _ (.add ⟨rfl, hweight⟩ .nil))
  numericOperations := .refl _

/-- On the same numbers one generator makes a comparison and the other one, which has one more name, fails. -/
theorem unknown_name_is_chosen :
    negating.weights.AddsUnknown (0.0 ≤ ·) (0.0 ≤ ·) (exclusive 1.0) ∧
      (exclusive 1.0).validate = .ok (exclusive 1.0) ∧ (Draws.ofTape #[0.75]).InUnit ∧
      ((negating.tree .boolean 7 none).run.run (Draws.ofTape #[0.75])).1 =
        .ok (.comparison .less (.leaf (.date .day)) (.leaf (.date .day))) ∧
      (((negating.withWeights (exclusive 1.0)).tree .boolean 7 none).run.run
        (Draws.ofTape #[0.75])).1 = .error (.unknownName "xor") :=
  ⟨addsUnknown_exclusive (by decide +kernel), rfl, Draws.inUnit_ofTape (by decide +kernel),
    by decide +kernel, by decide +kernel⟩

/-- Without a weight the name makes no difference.  With one the generator may still make a tree, which it
may make without the name as well. -/
theorem unknown_names_add_nothing_exclusive :
    Draw.Same (negating.tree .boolean 7 none)
        ((negating.withWeights (exclusive 0.0)).tree .boolean 7 none) ∧
      ∃ d', ((negating.withWeights (exclusive 1.0)).tree .boolean 7 none).run.run
          (Draws.ofTape #[0.25]) =
        (.ok (.not (.comparison .less (.number (.real 25.0 rfl)) (.number (.real 25.0 rfl)))), d') ∧
      negating.Offers .boolean
        (.not (.comparison .less (.number (.real 25.0 rfl)) (.number (.real 25.0 rfl)))) := by
  have hknows : negating.KnowsQuotes := by
    unfold KnowsQuotes
    decide
  have hcomparison : negating.OffersComparison :=
    ⟨.less, 1, List.mem_of_getElem? (i := 1) rfl, by decide +kernel⟩
  have hinteger : negating.OffersNumber .integer :=
    .inr ⟨rfl, "integer", by decide, 5000, List.mem_of_getElem? (i := 1) rfl, by decide +kernel⟩
  have hresult : (((negating.withWeights (exclusive 1.0)).tree .boolean 7 none).run.run
      (Draws.ofTape #[0.25])).1 =
        .ok (.not (.comparison .less (.number (.real 25.0 rfl)) (.number (.real 25.0 rfl)))) := by
    decide +kernel
  obtain ⟨d', hrun⟩ := exists_run_eq hresult
  refine ⟨?_, d', hrun, ?_⟩
  · exact (unknown_names_add_nothing negating (exclusive 0.0) .boolean 7).1
      (addsUnknown_exclusive fun hpos => absurd hpos (by decide +kernel)) none
  · exact (unknown_names_add_nothing negating (exclusive 1.0) .boolean 7).2
      (addsUnknown_exclusive trivial) hknows hcomparison hinteger _ d' _ hrun

end Generator

end TradeRules
