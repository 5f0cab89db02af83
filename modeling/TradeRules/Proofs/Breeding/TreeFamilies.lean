import TradeRules.Breeding.Generator
import TradeRules.Proofs.Breeding.Yields
import TradeRules.Proofs.Rule.Simplify

/-!
# Families of random trees

A `TreeFamily` says which trees there are of each kind, which kinds the operands of any kind of numbers may
have, and which operations there are.  A generator keeps to a family (`TreeFamily.Keeps`) when its leaves
belong to it, the names that it may draw stand for operations of it, and these operations lead from trees
of the family to trees of the family.  Then all random trees belong to it, whatever numbers are drawn
(`TreeFamily.Keeps.tree`, `TreeFamily.Keeps.branch`).

So what all random trees have in common is proved of one node at a time, and the functions of the
generator are followed here once for all.  A tree made after a model takes over operands of the model, and
for that the model has to fit as well (`TreeFamily.Guides`).  The induction is on the number of levels that
are left.
-/

namespace TradeRules

open Draw

/-! ## Weights of names -/

/-- Whether a table gives a name a positive weight. -/
def WeightTable.Weighs (table : WeightTable) (name : String) : Prop :=
  ∃ weight, (name, weight) ∈ table ∧ 0.0 < weight

theorem WeightTable.weighs_iff {table : WeightTable} {name : String} :
    table.Weighs name ↔ name ∈ table.positive.names := by
  simp [Weighs, positive, names]

/-- A name with a weight is a name of the table. -/
theorem WeightTable.Weighs.mem_names {table : WeightTable} {name : String} (h : table.Weighs name) :
    name ∈ table.names :=
  mem_names_of_positive (weighs_iff.mp h)

/-- A table that leaves out entries gives no name a weight. -/
theorem WeightTable.Weighs.of_filter {table : WeightTable} {p : String × Float → Bool}
    {name : String} (h : WeightTable.Weighs (table.filter p) name) : table.Weighs name := by
  obtain ⟨weight, hmem, hpos⟩ := h
  exact ⟨weight, (List.mem_filter.mp hmem).1, hpos⟩

theorem Draw.yields_choose_weighs (table : WeightTable) : Yields (choose table) table.Weighs :=
  (yields_choose_positive table).mono fun _ => WeightTable.weighs_iff.mpr

/-! ## What names stand for -/

theorem Comparison.sign_of_ofName? {name : String} {op : Comparison} (h : ofName? name = some op) :
    name = op.sign := by
  have hsign := List.find?_some h
  exact (beq_iff_eq.mp hsign).symm

theorem Comparison.ofName?_sign (op : Comparison) : ofName? op.sign = some op := by
  cases op <;> rfl

/-- A comparison is the BOOLEAN operation of its name. -/
theorem BooleanOperation.ofName?_of_comparison {name : String} {op : Comparison}
    (h : Comparison.ofName? name = some op) : ofName? name = some (.comparison op) := by
  rw [Comparison.sign_of_ofName? h]
  cases op <;> rfl

/-! ## Families -/

/-- The trees that may be made, and what they are made of. -/
structure TreeFamily where
  /-- The trees of a kind. -/
  tree : Kind → Expr → Prop
  /-- The kinds of an operand of any kind of numbers. -/
  number : Kind → Prop
  /-- The BOOLEAN operations. -/
  boolean : BooleanOperation → Prop
  /-- The operations with results of a kind of numbers. -/
  numeric : Kind → NumericOperation → Prop

/-- The quotes that statistics with results of a kind read. -/
def Generator.quoteKind (kind : Kind) : Kind :=
  if kind = .float then .floatQuote else .integerQuote

open Generator (quoteKind)

/-- Whether a generator keeps to a family. -/
structure TreeFamily.Keeps (F : TreeFamily) (g : Generator) : Prop where
  leaf : ∀ {kind}, kind ≠ .boolean → Yields (g.leaf kind) (F.tree kind)
  numericKind : Yields g.numericKind F.number
  isNumeric : ∀ {k}, F.number k → k.isNumeric = true
  /-- Trees of the kind that one declares may stand beside it. -/
  declared : ∀ {j k a b}, F.tree k a → a.declaredKind = .ok j → F.tree j b → F.tree k b
  booleanName : ∀ {name op}, g.weights.booleanOperations.Weighs name →
    BooleanOperation.ofName? name = some op → F.boolean op
  /-- Past the last level there is a comparison even if none has a weight. -/
  greater : (∀ op : Comparison, ¬g.weights.booleanOperations.Weighs op.sign) →
    F.boolean (.comparison .greater)
  numericName : ∀ {kind name op}, kind.isNumeric = true → (g.numericTable kind).Weighs name →
    NumericOperation.ofName? name = some op → F.numeric kind op
  not : ∀ {a}, F.boolean .not → F.tree .boolean a → F.tree .boolean (.not a)
  connective : ∀ {op a b}, F.boolean (.connective op) → F.tree .boolean a → F.tree .boolean b →
    F.tree .boolean (.connective op a b)
  comparison : ∀ {op k a b}, F.boolean (.comparison op) → F.number k → F.tree k a → F.tree k b →
    F.tree .boolean (.comparison op a b)
  unary : ∀ {op k a}, F.numeric k (.unary op) → k.isNumeric = true → F.tree k a →
    F.tree k (.unary op a)
  arithmetic : ∀ {op k a b}, F.numeric k (.arithmetic op) → k.isNumeric = true → F.tree k a →
    F.tree k b → F.tree k (.arithmetic op a b)
  percent : ∀ {j k a b}, F.numeric k .percent → k.isNumeric = true → F.number j → F.tree k a →
    F.tree j b → F.tree k (.binary .percent a b)
  choice : ∀ {k c a b}, F.numeric k .choice → k.isNumeric = true → F.tree .boolean c →
    F.tree k a → F.tree k b → F.tree k (.choice c a b)
  lag : ∀ {k q offset}, F.numeric k .lag → k.isNumeric = true → F.tree (quoteKind k) q →
    F.tree .integer offset → F.tree k (.binary .lag q offset)
  statistic : ∀ {s k q period offset}, F.numeric k (.statistic s) → k.isNumeric = true →
    F.tree (quoteKind k) q → F.tree .integer period → F.tree .integer offset →
    F.tree k (.ternary (.statistic s) q period offset)
  ema : ∀ {k q period offset x h}, F.numeric k .ema → k.isNumeric = true →
    F.tree (quoteKind k) q → F.tree .integer period → F.tree .integer offset →
    F.tree k (.quaternary .ema q period offset (.number (.real x h)))
  rsi : ∀ {k period offset}, F.numeric k .rsi → F.tree .integer period → F.tree .integer offset →
    F.tree k (.binary .rsi period offset)
  correlation : ∀ {k partner q period offset}, F.numeric k .correlation → k.isNumeric = true →
    partner ∈ g.symbols.map Symbol.code → F.tree (quoteKind k) q → F.tree .integer period →
    F.tree .integer offset → F.tree k (.ternary (.correlation partner) q period offset)

/-- Whether a tree may be followed: its operands belong to the family in the kinds that they declare, and
so does what a number is moved to. -/
structure TreeFamily.Guides (F : TreeFamily) (m : Expr) : Prop where
  operand : ∀ {a k}, a ∈ m.operands → a.declaredKind = .ok k → F.tree k a
  number : ∀ {a k}, a ∈ m.operands → a.declaredKind = .ok k → k.isNumeric = true → F.number k
  nudge : ∀ {l}, m = .number l → ∀ kind, Yields (Generator.nudge l kind) (F.tree kind)

/-- Whether a supply grows trees of a family and follows a model that fits. -/
structure Supply.Follows (F : TreeFamily) (s : Supply) : Prop where
  grow : ∀ kind, Yields (s.grow kind) (F.tree kind)
  model : ∀ m, s.model = some m → F.Guides m

/-! ## What has no operands -/

namespace Literal

/-- A literal that is built has the kind it is built for. -/
theorem kind_of_build {k : Kind} {value : Numeral} {l : Literal} (h : build k value = .ok l) :
    l.kind = k := by
  unfold build at h
  split_ifs at h with hk
  cases value with
  | whole n =>
    cases k with
    | integer =>
      simp only [ofInt?] at h
      split_ifs at h
      cases h
      rfl
    | float =>
      simp only [ofDouble?] at h
      split_ifs at h
      cases h
      rfl
    | boolean => cases hk
    | integerQuote => cases hk
    | floatQuote => cases hk
  | real x =>
    cases hl : ofKind? k x with
    | none => cases k <;> simp_all
    | some m =>
      have hm := kind_of_ofKind? hl
      cases k <;> simp_all

end Literal

namespace Generator

theorem yields_smoothing_real : Yields smoothing fun e => ∃ x h, e = .number (.real x h) :=
  yields_unit.then fun _ => (yields_built fun _ hl => Literal.kind_of_build hl).bind fun l hl =>
    Yields.pure <| by
      cases l with
      | whole n h => cases hl
      | real x h => exact ⟨x, h, rfl⟩

/-- The partner is the code of a symbol. -/
theorem yields_partner (g : Generator) : Yields g.partner (· ∈ g.symbols.map Symbol.code) := by
  unfold partner
  split
  · exact Yields.throw id
  · next symbol rest hsymbols =>
    refine (yields_pick symbol rest).bind fun s hs => Yields.pure ?_
    rw [hsymbols]
    exact List.mem_map_of_mem hs

theorem yields_branches (level : Int) : Yields (branches level) fun _ => True :=
  Yields.ite (fun _ => Yields.pure trivial) fun _ => yields_unit.then fun _ => Yields.pure trivial

end Generator

/-! ## Operands -/

namespace Supply.Follows

variable {F : TreeFamily} {s : Supply}

/-- An operand taken from the model belongs to the family in the kind it is given with. -/
theorem modelled (hs : s.Follows F) (index : Nat) :
    Yields (s.modelled index) fun found => ∀ a k, found = some (a, k) →
      F.tree k a ∧ (k.isNumeric = true → F.number k) := by
  unfold Supply.modelled
  split
  · exact Yields.pure nofun
  · next a ha =>
    obtain ⟨m, hm, hop⟩ := Option.bind_eq_some_iff.mp ha
    have hguides := hs.model m hm
    have hmem := List.mem_of_getElem? hop
    refine (yields_built (P := fun k => a.declaredKind = .ok k) fun _ hk => hk).bind
      fun k hk => Yields.pure ?_
    rintro _ _ ⟨⟩
    exact ⟨hguides.operand hmem hk, hguides.number hmem hk⟩

theorem operand (hs : s.Follows F) (index : Nat) (kind : Kind) :
    Yields (s.operand index kind) (F.tree kind) := by
  refine (hs.modelled index).bind fun found hfound => ?_
  cases found with
  | none => exact hs.grow kind
  | some pair =>
    refine Yields.ite (fun hk => Yields.pure ?_) fun _ => hs.grow kind
    exact hk ▸ (hfound _ _ rfl).1

end Supply.Follows

namespace TreeFamily.Keeps

variable {F : TreeFamily} {g : Generator} {s : Supply} {kind : Kind}

theorem leaf_of_number (hF : F.Keeps g) {k : Kind} (hk : k.isNumeric = true) :
    Yields (g.leaf k) (F.tree k) :=
  hF.leaf <| by
    rintro rfl
    cases hk

theorem quote (hF : F.Keeps g) (kind : Kind) : Yields (g.quote kind) (F.tree (quoteKind kind)) :=
  hF.leaf <| by split_ifs <;> nofun

/-- An operand of any kind of numbers. -/
theorem numericOperand (hF : F.Keeps g) (hs : s.Follows F) (index : Nat) :
    Yields (g.numericOperand s index) fun a => ∃ k, F.number k ∧ F.tree k a := by
  have hgrow : Yields (do s.grow (← g.numericKind)) fun a => ∃ k, F.number k ∧ F.tree k a :=
    hF.numericKind.bind fun k hk => (hs.grow k).mono fun _ ha => ⟨k, hk, ha⟩
  refine (hs.modelled index).bind fun found hfound => ?_
  cases found with
  | none => exact hgrow
  | some pair =>
    obtain ⟨htree, hnumber⟩ := hfound _ _ rfl
    exact Yields.ite (fun hk => Yields.pure ⟨_, hnumber hk, htree⟩) fun _ => hgrow

/-! ## BOOLEAN operations -/

theorem leafComparison (hF : F.Keeps g) : Yields g.leafComparison (F.tree .boolean) := by
  have hrest : ∀ op : Comparison, F.boolean (.comparison op) → Yields (do
      let kind ← g.numericKind
      let a ← g.leaf kind
      let b ← g.leaf kind
      return Expr.comparison op a b) (F.tree .boolean) := fun op hop =>
    hF.numericKind.bind fun _ hk =>
      (hF.leaf_of_number (hF.isNumeric hk)).bind fun _ ha =>
        (hF.leaf_of_number (hF.isNumeric hk)).bind fun _ hb =>
          Yields.pure (hF.comparison hop hk ha hb)
  unfold Generator.leafComparison
  dsimp only
  split_ifs with hempty
  · refine (Yields.pure (hF.greater ?_) : Yields _ fun op => F.boolean (.comparison op)).bind hrest
    rintro op ⟨weight, hmem, hpos⟩
    have hname : (Comparison.ofName? op.sign).isSome = true := by
      rw [Comparison.ofName?_sign]
      rfl
    have hentry : (op.sign, weight) ∈ WeightTable.positive
        (g.weights.booleanOperations.filter fun entry => (Comparison.ofName? entry.1).isSome) :=
      List.mem_filter.mpr ⟨List.mem_filter.mpr ⟨hmem, hname⟩, decide_eq_true hpos⟩
    rw [List.isEmpty_iff.mp hempty] at hentry
    cases hentry
  · refine (yields_choose_weighs _).bind fun name hname => ?_
    obtain ⟨weight, hmem, hpos⟩ := hname
    obtain ⟨hentry, hsome⟩ := List.mem_filter.mp hmem
    obtain ⟨op, hop⟩ := Option.isSome_iff_exists.mp hsome
    rw [pure_bind, hop]
    exact hrest op (hF.booleanName ⟨weight, hentry, hpos⟩
      (BooleanOperation.ofName?_of_comparison hop))

/-- Two operands of one kind of numbers: the second one is asked for in the kind that the first one
declares. -/
theorem compared (hF : F.Keeps g) (hs : s.Follows F) :
    Yields (g.compared s) fun p => ∃ k, F.number k ∧ F.tree k p.1 ∧ F.tree k p.2 :=
  (hF.numericOperand hs 0).bind fun a ⟨k, hk, ha⟩ =>
    (yields_built (P := fun j => a.declaredKind = .ok j) fun _ hj => hj).bind fun j hj =>
      (hs.operand 1 j).bind fun _ hb => Yields.pure ⟨k, hk, ha, hF.declared ha hj hb⟩

theorem booleanNode (hF : F.Keeps g) (hs : s.Follows F) :
    Yields (g.booleanNode s) (F.tree .boolean) := by
  refine (yields_choose_weighs _).bind fun name hname => ?_
  cases hop : BooleanOperation.ofName? name with
  | none => exact (hF.compared hs).bind fun _ _ => Yields.throw id
  | some op =>
    have hboolean := hF.booleanName hname hop
    cases op with
    | not => exact (hs.operand 0 .boolean).bind fun _ ha => Yields.pure (hF.not hboolean ha)
    | connective op =>
      exact (hs.operand 0 .boolean).bind fun _ ha => (hs.operand 1 .boolean).bind fun _ hb =>
        Yields.pure (hF.connective hboolean ha hb)
    | comparison op =>
      exact (hF.compared hs).bind fun _ ⟨_, hk, ha, hb⟩ =>
        Yields.pure (hF.comparison hboolean hk ha hb)

/-! ## Numeric operations -/

theorem operation (hF : F.Keeps g) (hs : s.Follows F) (hk : kind.isNumeric = true) :
    ∀ op, F.numeric kind op → Yields (g.operation kind s op) (F.tree kind)
  | .leaf, _ => hF.leaf_of_number hk
  | .unary _, hop => (hs.operand 0 kind).bind fun _ ha => Yields.pure (hF.unary hop hk ha)
  | .arithmetic _, hop =>
    (hs.operand 0 kind).bind fun _ ha => (hs.operand 1 kind).bind fun _ hb =>
      Yields.pure (hF.arithmetic hop hk ha hb)
  | .percent, hop =>
    (hs.operand 0 kind).bind fun _ ha => (hF.numericOperand hs 1).bind fun _ ⟨_, hj, hb⟩ =>
      Yields.pure (hF.percent hop hk hj ha hb)
  | .choice, hop =>
    (hs.operand 0 .boolean).bind fun _ hc => (hs.operand 1 kind).bind fun _ ha =>
      (hs.operand 2 kind).bind fun _ hb => Yields.pure (hF.choice hop hk hc ha hb)
  | .lag, hop =>
    (hF.quote kind).bind fun _ hq => (hs.operand 1 .integer).bind fun _ ho =>
      Yields.pure (hF.lag hop hk hq ho)
  | .statistic _, hop =>
    (hF.quote kind).bind fun _ hq => (hs.operand 1 .integer).bind fun _ hp =>
      (hs.operand 2 .integer).bind fun _ ho => Yields.pure (hF.statistic hop hk hq hp ho)
  | .ema, hop =>
    (hF.quote kind).bind fun _ hq => (hs.operand 1 .integer).bind fun _ hp =>
      (hs.operand 2 .integer).bind fun _ ho =>
        Generator.yields_smoothing_real.bind fun _ ⟨_, _, hx⟩ =>
          Yields.pure (hx ▸ hF.ema hop hk hq hp ho)
  | .rsi, hop =>
    (hs.operand 0 .integer).bind fun _ hp => (hs.operand 1 .integer).bind fun _ ho =>
      Yields.pure (hF.rsi hop hp ho)
  | .correlation, hop =>
    (Generator.yields_partner g).bind fun _ hpartner => (hF.quote kind).bind fun _ hq =>
      (hs.operand 1 .integer).bind fun _ hp => (hs.operand 2 .integer).bind fun _ ho =>
        Yields.pure (hF.correlation hop hk hpartner hq hp ho)

theorem numericNode (hF : F.Keeps g) (hs : s.Follows F) (hk : kind.isNumeric = true) :
    Yields (g.numericNode kind s) (F.tree kind) := by
  refine (yields_choose_weighs _).bind fun name hname => ?_
  cases hop : NumericOperation.ofName? name with
  | none => exact Yields.throw id
  | some op => exact hF.operation hs hk op (hF.numericName hk hname hop)

/-! ## Trees -/

variable {model : Option Expr} {grow : Option (Kind → Draw Expr)}

theorem nudged (hmodel : ∀ m, model = some m → F.Guides m) (kind : Kind) :
    Yields (Generator.nudged model kind) fun found => ∀ e, found = some e → F.tree kind e := by
  unfold Generator.nudged
  split
  · next l =>
    refine (yields_below 100).then fun _ => Yields.ite (fun _ => ?_) fun _ => ?_
    · refine ((hmodel _ rfl).nudge rfl kind).bind fun e he => Yields.pure ?_
      rintro _ ⟨⟩
      exact he
    · exact Yields.pure nofun
  · exact Yields.pure nofun

theorem branchWith (hF : F.Keeps g) (hmodel : ∀ m, model = some m → F.Guides m)
    (hgrow : ∀ f, grow = some f → ∀ kind, Yields (f kind) (F.tree kind)) :
    Yields (g.branchWith kind model grow) (F.tree kind) := by
  refine Yields.ite (fun hbool => ?_) fun hbool => Yields.ite (fun hk => ?_) fun _ => hF.leaf hbool
  · subst hbool
    cases grow with
    | none => exact hF.leafComparison
    | some f => exact hF.booleanNode ⟨hgrow f rfl, hmodel⟩
  · refine (nudged hmodel kind).bind fun found hfound => ?_
    cases found with
    | some e => exact Yields.pure (hfound e rfl)
    | none =>
      cases grow with
      | none => exact hF.leaf hbool
      | some f => exact hF.numericNode ⟨hgrow f rfl, hmodel⟩ hk

/-- A BOOLEAN tree is never a leaf. -/
theorem treeWith (hF : F.Keeps g) (level : Int) (hmodel : ∀ m, model = some m → F.Guides m)
    (hgrow : ∀ f, grow = some f → ∀ kind, Yields (f kind) (F.tree kind)) :
    Yields (g.treeWith kind level model grow) (F.tree kind) :=
  (Generator.yields_branches level).then fun _ =>
    Yields.ite (fun _ => hF.branchWith hmodel hgrow) fun hleaf => hF.leaf <| by
      rintro rfl
      simp at hleaf

/-- New operands belong to the family, however many levels are left. -/
theorem operandsAt (hF : F.Keeps g) (room : Nat) (level : Int) :
    ∀ f, g.operandsAt room level = some f → ∀ kind, Yields (f kind) (F.tree kind) := by
  induction room generalizing level with
  | zero => exact nofun
  | succ room ih =>
    rintro _ ⟨⟩ kind
    exact hF.treeWith level nofun (ih (level + 1))

theorem branch (hF : F.Keeps g) (level : Int) (hmodel : ∀ m, model = some m → F.Guides m) :
    Yields (g.branch kind level model) (F.tree kind) :=
  hF.branchWith hmodel (hF.operandsAt _ _)

theorem tree (hF : F.Keeps g) (level : Int) (hmodel : ∀ m, model = some m → F.Guides m) :
    Yields (g.tree kind level model) (F.tree kind) :=
  hF.treeWith level hmodel (hF.operandsAt _ _)

end TreeFamily.Keeps

end TradeRules
