import TradeRules.Proofs.Breeding.Cross
import TradeRules.Proofs.Breeding.Ends
import TradeRules.Proofs.Double.Number
import TradeRules.Proofs.Rule.Shrinking

/-!
# Random trees are made, and bounded in depth

Made without a model, a random tree is no deeper than the levels that are left allow.  An operand with room
for `n` levels below it is at most `n + 1` deep (`growsTo_operandsAt`), by induction on the room.  With no
room there are no new operands but leaves, and a comparison of two leaves is the deepest that is made.

The generator does not fail while every table has an entry of positive weight that it knows and weights of
a finite sum (`Generator.CanChoose`), unless it draws one that it does not know (`Generator.Unknown`).  The
numbers it makes are finite, since what they are made of lies in the unit interval.

An operation asks for the kind of an operand it has made, so the kind has to be declared.  Hence trees are
followed with both (`Expr.Grown`): their depth, and that they declare a kind.
-/

namespace TradeRules

open Draw

/-- What random trees fail for: a name of positive weight that stands for nothing. -/
inductive Generator.Unknown (g : Generator) : BreedError → Prop
  | integerLeaf {name : String} (hname : name ∈ g.integerTable.positive.names)
    (h : IntegerLeaf.ofName? name = none) : g.Unknown (.unknownName name)
  | field {name : String} (hname : name ∈ g.weights.floatQuotes.positive.names)
    (h : Field.ofWord? name = none) : g.Unknown (.build (.unknownField name))
  | booleanOperation {name : String}
    (hname : name ∈ g.weights.booleanOperations.positive.names)
    (h : BooleanOperation.ofName? name = none) : g.Unknown (.unknownName name)
  | numericOperation {name : String} (kind : Kind)
    (hname : name ∈ (g.numericTable kind).positive.names)
    (h : NumericOperation.ofName? name = none) : g.Unknown (.unknownOperation name)

/-- Whether every name of positive weight stands for something. -/
structure Generator.KnowsNames (g : Generator) : Prop where
  integerLeaf : ∀ name ∈ g.integerTable.positive.names, (IntegerLeaf.ofName? name).isSome
  field : ∀ name ∈ g.weights.floatQuotes.positive.names, (Field.ofWord? name).isSome
  booleanOperation : ∀ name ∈ g.weights.booleanOperations.positive.names,
    (BooleanOperation.ofName? name).isSome
  numericOperation : ∀ kind, ∀ name ∈ (g.numericTable kind).positive.names,
    (NumericOperation.ofName? name).isSome

theorem Generator.KnowsNames.not_unknown {g : Generator} (hg : g.KnowsNames) (e : BreedError) :
    ¬g.Unknown e := by
  rintro (⟨hname, h⟩ | ⟨hname, h⟩ | ⟨hname, h⟩ | ⟨kind, hname, h⟩)
  · simpa [h] using hg.integerLeaf _ hname
  · simpa [h] using hg.field _ hname
  · simpa [h] using hg.booleanOperation _ hname
  · simpa [h] using hg.numericOperation kind _ hname

/-- Whether each table that is drawn from has a known name of positive weight, and weights that can be
added up. -/
@[mk_iff] structure Generator.CanChoose (g : Generator) : Prop where
  integerLeaf : g.integerTable.CanGive fun name => (IntegerLeaf.ofName? name).isSome
  numericOperand : g.weights.numericOperands.CanGive fun name => name = "float" ∨ name = "integer"
  field : g.weights.floatQuotes.CanGive fun name => (Field.ofWord? name).isSome
  booleanOperation : g.weights.booleanOperations.CanGive fun name =>
    (BooleanOperation.ofName? name).isSome
  numericOperation : ∀ kind ∈ [Kind.integer, .float],
    (g.numericTable kind).CanGive fun name => (NumericOperation.ofName? name).isSome

instance (g : Generator) : Decidable g.CanChoose :=
  decidable_of_iff' _ g.canChoose_iff

/-! ## Depth and declared kind -/

namespace Expr

/-- Whether a tree is no deeper than a bound, and declares a kind. -/
structure Grown (n : ℕ) (e : Expr) : Prop where
  depth : e.depth ≤ n
  kind : ∃ k, e.declaredKind = .ok k

/-- Whether a tree is a single leaf. -/
def IsSingle (e : Expr) : Prop :=
  ∃ l, e = .leaf l

variable {a b c d e : Expr} {m n : ℕ}

theorem Grown.mono (h : e.Grown m) (hmn : m ≤ n) : e.Grown n :=
  ⟨h.depth.trans hmn, h.kind⟩

theorem IsSingle.grown (h : e.IsSingle) (n : ℕ) : e.Grown (n + 1) := by
  obtain ⟨l, rfl⟩ := h
  exact ⟨by simp [Expr.depth], l.kind, rfl⟩

theorem ofQuote_field (f : Field) : ∃ k, Kind.ofQuote f.kind = .ok k := by
  cases f with
  | opening | high | low | closing => exact ⟨.float, rfl⟩
  | volume => exact ⟨.integer, rfl⟩

theorem Grown.unary (op : Unary) (ha : a.Grown n) : (unary op a).Grown (n + 1) := by
  have hdepth := ha.depth
  refine ⟨by simp only [Expr.depth]; omega, ?_⟩
  cases op with
  | not => exact ⟨.boolean, rfl⟩
  | sqrt => exact ha.kind
  | abs => exact ha.kind

/-- A statistic of one day reads a quote, which declares its kind. -/
theorem Grown.lag (f : Field) (hb : b.Grown (n + 1)) :
    (binary .lag (.quote f) b).Grown (n + 2) := by
  have hdepth := hb.depth
  refine ⟨?_, ofQuote_field f⟩
  simp only [Expr.depth]
  omega

theorem Grown.binary {op : Binary} (hop : op ≠ .lag) (ha : a.Grown n) (hb : b.Grown n) :
    (binary op a b).Grown (n + 1) := by
  have hdepth := ha.depth
  have hdepth' := hb.depth
  refine ⟨by simp only [Expr.depth]; omega, ?_⟩
  cases op with
  | arithmetic op => exact ha.kind
  | comparison op => exact ⟨.boolean, rfl⟩
  | connective op => exact ⟨.boolean, rfl⟩
  | percent => exact ha.kind
  | lag => exact absurd rfl hop
  | rsi => exact ⟨.float, rfl⟩

theorem Grown.choice (hc : c.Grown n) (ha : a.Grown n) (hb : b.Grown n) :
    (choice c a b).Grown (n + 1) := by
  have hdepth := hc.depth
  have hdepth' := ha.depth
  have hdepth'' := hb.depth
  refine ⟨?_, ha.kind⟩
  simp only [Expr.depth]
  omega

theorem Grown.quoted {op : Ternary} (hop : op ≠ .choice) (f : Field) (hb : b.Grown (n + 1))
    (hc : c.Grown (n + 1)) : (ternary op (.quote f) b c).Grown (n + 2) := by
  have hdepth := hb.depth
  have hdepth' := hc.depth
  refine ⟨by simp only [Expr.depth]; omega, ?_⟩
  cases op with
  | choice => exact absurd rfl hop
  | statistic s => exact ofQuote_field f
  | correlation partner => exact ⟨.float, rfl⟩

theorem Grown.ema (f : Field) (hb : b.Grown (n + 1)) (hc : c.Grown (n + 1))
    (hd : d.Grown (n + 1)) : (quaternary .ema (.quote f) b c d).Grown (n + 2) := by
  have hdepth := hb.depth
  have hdepth' := hc.depth
  have hdepth'' := hd.depth
  refine ⟨?_, ofQuote_field f⟩
  simp only [Expr.depth]
  omega

end Expr

open TradeRules.Expr (Grown IsSingle)

namespace Generator

variable {g : Generator} {kind : Kind} {n : ℕ}

/-! ## Leaves -/

/-- A number is built when it is finite. -/
theorem literal_real {x : Float} (hx : x.isFinite = true) :
    literal .float (.real x) = pure (.number (.real x hx)) := by
  have hbuild : Literal.build .float (.real x) = .ok (.real x hx) := by
    simp [Literal.build, Kind.isNumeric, Literal.ofKind?, Literal.ofDouble?, hx]
  unfold literal
  rw [hbuild]
  rfl

theorem ends_real {x : Float} (hx : x.isFinite = true) :
    Ends g.Unknown (literal .float (.real x)) IsSingle := by
  rw [literal_real hx]
  exact Ends.pure ⟨_, rfl⟩

theorem ends_whole {m : ℤ} (hm : (Double.ofInt m).isFinite = true) :
    Ends g.Unknown (literal .integer (.whole m)) IsSingle := by
  have hbuild : Literal.build .integer (.whole m) = .ok (.whole m hm) := by
    simp [Literal.build, Kind.isNumeric, Literal.ofInt?, hm]
  unfold literal
  rw [hbuild]
  exact Ends.pure ⟨_, rfl⟩

theorem ends_field (hg : g.CanChoose) : Ends g.Unknown (g.leaf .floatQuote) fun q =>
    ∃ f, q = .quote f := by
  refine (ends_choose hg.field).bind fun name hname => ?_
  unfold Expr.buildQuote
  cases hfield : Field.ofWord? name with
  | none =>
    refine ends_built (fun q h => by cases h) fun e h => ?_
    cases h
    exact .field hname hfield
  | some f =>
    refine ends_built (fun q h => ?_) fun e h => by cases h
    cases h
    exact ⟨f, rfl⟩

theorem ends_leaf (hg : g.CanChoose) (kind : Kind) : Ends g.Unknown (g.leaf kind) IsSingle := by
  cases kind with
  | boolean => exact (ends_below (by norm_num)).bind fun _ _ => Ends.pure ⟨_, rfl⟩
  | integer =>
    refine (ends_choose hg.integerLeaf).bind fun name hname => ?_
    cases hleaf : IntegerLeaf.ofName? name with
    | none => exact Ends.throw (.integerLeaf hname hleaf)
    | some l =>
      cases l with
      | number =>
        refine (ends_below (n := 2 * reach) (by norm_num [reach])).bind fun m hm => ends_whole ?_
        refine (Double.ofInt_exact (abs_le.mpr ?_)).1
        simp only [reach] at hm ⊢
        omega
      | held => exact Ends.pure ⟨_, rfl⟩
      | order => exact Ends.pure ⟨_, rfl⟩
      | date part => exact Ends.pure ⟨_, rfl⟩
  | float =>
    refine ends_unit.bind fun x hx => ends_real ?_
    obtain ⟨hfin, hlow, hhigh⟩ := scaled_exact hx (n := 2 * reach) (by norm_num [reach])
    obtain ⟨hreach, hreach'⟩ := Double.ofNat_exact (n := reach) (by norm_num [reach])
    have htwice : ((2 * reach : ℕ) : ℚ) = 100 := by norm_num [reach]
    have hhalf : (reach : ℚ) = 50 := by norm_num [reach]
    have hround := Double.sub_isRounding hreach hfin
    rw [htwice] at hhigh
    rw [hreach', hhalf] at hround
    refine (hround.of_between (m := -50) (n := 50) (by norm_num) (by norm_num) ?_ ?_).1
    · push_cast
      linarith
    · push_cast
      linarith
  | integerQuote => exact Ends.pure ⟨_, rfl⟩
  | floatQuote =>
    refine (ends_field hg).mono ?_
    rintro _ ⟨f, rfl⟩
    exact ⟨_, rfl⟩

theorem ends_quote (hg : g.CanChoose) (kind : Kind) :
    Ends g.Unknown (g.quote kind) fun q => ∃ f, q = .quote f := by
  unfold quote
  split_ifs
  · exact ends_field hg
  · exact Ends.pure ⟨.volume, rfl⟩

theorem ends_numericKind (hg : g.CanChoose) : Ends g.Unknown g.numericKind fun _ => True :=
  (ends_choose hg.numericOperand).bind fun _ _ => Ends.pure trivial

/-- A random smoothing constant lies in its range, whatever the rounding. -/
theorem ends_smoothing_within : Ends g.Unknown smoothing fun r =>
    ∃ x h, r = .number (.real x h) ∧ Smoothing.least ≤ x ∧ x ≤ Smoothing.greatest := by
  have hleast : Smoothing.least.isFinite = true ∧ Smoothing.greatest.isFinite = true ∧
      (Smoothing.greatest - Smoothing.least).isFinite = true := by
    decide +kernel
  have hrange : 0 ≤ Double.exact (Smoothing.greatest - Smoothing.least) ∧
      Double.exact Smoothing.least + Double.exact (Smoothing.greatest - Smoothing.least)
        ≤ Double.exact Smoothing.greatest := by
    decide +kernel
  obtain ⟨hlfin, hgfin, hrfin⟩ := hleast
  refine ends_unit.bind fun x hx => ?_
  obtain ⟨hxfin, hx0, hx1⟩ := unit_exact hx
  obtain ⟨hpfin, hp0, hp1⟩ := (Double.mul_isRounding hrfin hxfin).within (x := 0.0)
    (y := Smoothing.greatest - Smoothing.least)
    (by rw [Double.zero_exact.2]; exact mul_nonneg hrange.1 hx0)
    (mul_le_of_le_one_right hrange.1 hx1)
  rw [Double.zero_exact.2] at hp0
  obtain ⟨hfin, hlow, hhigh⟩ := (Double.add_isRounding hlfin hpfin).within (x := Smoothing.least)
    (y := Smoothing.greatest) (by linarith) (by linarith)
  rw [literal_real hfin]
  exact Ends.pure ⟨_, hfin, rfl, (Double.le_iff_exact hlfin hfin).mpr hlow,
    (Double.le_iff_exact hfin hgfin).mpr hhigh⟩

theorem ends_smoothing : Ends g.Unknown smoothing IsSingle := by
  refine ends_smoothing_within.mono ?_
  rintro _ ⟨x, h, rfl, -⟩
  exact ⟨_, rfl⟩

end Generator

/-! ## Operands -/

/-- Whether a supply follows no model and grows what it is asked for, within a depth. -/
structure Supply.Grows (g : Generator) (n : ℕ) (s : Supply) : Prop where
  model : s.model = none
  grow : ∀ kind, Ends g.Unknown (s.grow kind) (Grown n)

/-- Whether all operands of a supply have a property, those of its model and those that it grows. -/
structure Supply.Feeds (g : Generator) (P : Expr → Prop) (s : Supply) : Prop where
  model : ∀ m, s.model = some m → ∀ a ∈ m.operands, P a
  grow : ∀ kind, Ends g.Unknown (s.grow kind) P
  declares : ∀ a, P a → ∃ k, a.declaredKind = .ok k

theorem Supply.Grows.feeds {g : Generator} {n : ℕ} {s : Supply} (hs : s.Grows g n) :
    s.Feeds g (Grown n) where
  model m hm := by
    rw [hs.model] at hm
    cases hm
  grow := hs.grow
  declares _ := Grown.kind

namespace Generator

variable {g : Generator} {kind : Kind} {n : ℕ} {s : Supply} {P Q : Expr → Prop}

/-- The kind of an operand can be asked for. -/
theorem ends_declaredKind (hs : s.Feeds g P) {a : Expr} (ha : P a) :
    Ends g.Unknown (built a.declaredKind) fun _ => True := by
  obtain ⟨k, hk⟩ := hs.declares a ha
  rw [hk]
  exact Ends.pure trivial

theorem ends_modelled (hs : s.Feeds g P) (index : ℕ) :
    Ends g.Unknown (s.modelled index) fun found => ∀ pair, found = some pair → P pair.1 := by
  unfold Supply.modelled
  cases ha : s.model.bind fun m => m.operands[index]? with
  | none => exact Ends.pure nofun
  | some a =>
    obtain ⟨m, hm, hoperand⟩ := Option.bind_eq_some_iff.mp ha
    have hPa := hs.model m hm a (List.mem_of_getElem? hoperand)
    refine (ends_declaredKind hs hPa).bind fun k _ => Ends.pure ?_
    rintro _ ⟨⟩
    exact hPa

theorem ends_operand (hs : s.Feeds g P) (index : ℕ) (kind : Kind) :
    Ends g.Unknown (s.operand index kind) P := by
  refine (ends_modelled hs index).bind fun found hfound => ?_
  cases found with
  | none => exact hs.grow kind
  | some pair => exact Ends.ite (fun _ => Ends.pure (hfound pair rfl)) fun _ => hs.grow kind

theorem ends_numericOperand (hg : g.CanChoose) (hs : s.Feeds g P) (index : ℕ) :
    Ends g.Unknown (g.numericOperand s index) P := by
  have hgrow : Ends g.Unknown (do s.grow (← g.numericKind)) P :=
    (ends_numericKind hg).bind fun k _ => hs.grow k
  refine (ends_modelled hs index).bind fun found hfound => ?_
  cases found with
  | none => exact hgrow
  | some pair => exact Ends.ite (fun _ => Ends.pure (hfound pair rfl)) fun _ => hgrow

/-! ## BOOLEAN operations -/

/-- A comparison is made of two leaves if no comparison has a positive weight. -/
theorem ends_leafComparison (hg : g.CanChoose) : Ends g.Unknown g.leafComparison (Grown 2) := by
  have hrest : ∀ op, Ends g.Unknown (do
      let kind ← g.numericKind
      let a ← g.leaf kind
      let b ← g.leaf kind
      return Expr.comparison op a b) (Grown 2) := fun op =>
    (ends_numericKind hg).bind fun k _ => (ends_leaf hg k).bind fun _ ha =>
      (ends_leaf hg k).bind fun _ hb => Ends.pure (.binary (by simp) (ha.grown 0) (hb.grown 0))
  have hgiven : ∀ op, Ends g.Unknown (pure op : Draw Comparison) fun _ => True :=
    fun op => Ends.pure trivial
  unfold leafComparison
  dsimp only
  split_ifs with hempty
  · exact (hgiven _).bind fun op _ => hrest op
  · rw [List.isEmpty_iff] at hempty
    have hcomparison := hg.booleanOperation.of_sublist List.filter_sublist hempty
    exact (ends_choose hcomparison).bind fun _ _ => (hgiven _).bind fun op _ => hrest op

/-- The second operand is asked for in the kind that the first one declares. -/
theorem ends_compared (hg : g.CanChoose) (hs : s.Feeds g P) :
    Ends g.Unknown (g.compared s) fun p => P p.1 ∧ P p.2 := by
  refine (ends_numericOperand hg hs 0).bind fun a ha => ?_
  exact (ends_declaredKind hs ha).bind fun j _ => (ends_operand hs 1 j).bind fun b hb =>
    Ends.pure ⟨ha, hb⟩

/-- A BOOLEAN operation is made of operands that the supply has, whatever is asked of them. -/
theorem ends_booleanNode_of (hg : g.CanChoose) (hs : s.Feeds g P) (hnot : ∀ a, P a → Q (.not a))
    (hbinary : ∀ op a b, op ≠ .lag → P a → P b → Q (.binary op a b)) :
    Ends g.Unknown (g.booleanNode s) Q := by
  refine (ends_choose hg.booleanOperation).bind fun name hname => ?_
  cases hop : BooleanOperation.ofName? name with
  | none =>
    exact (ends_compared hg hs).bind fun _ _ => Ends.throw (.booleanOperation hname hop)
  | some op =>
    cases op with
    | not => exact (ends_operand hs 0 .boolean).bind fun a ha => Ends.pure (hnot a ha)
    | connective op =>
      exact (ends_operand hs 0 .boolean).bind fun a ha =>
        (ends_operand hs 1 .boolean).bind fun b hb => Ends.pure (hbinary _ a b nofun ha hb)
    | comparison op =>
      exact (ends_compared hg hs).bind fun p h => Ends.pure (hbinary _ p.1 p.2 nofun h.1 h.2)

theorem ends_booleanNode (hg : g.CanChoose) (hs : s.Grows g n) :
    Ends g.Unknown (g.booleanNode s) (Grown (n + 1)) :=
  ends_booleanNode_of hg hs.feeds (fun _ ha => .unary .not ha) fun _ _ _ hop ha hb =>
    .binary hop ha hb

/-! ## Numeric operations -/

theorem ends_partner (h : g.symbols ≠ []) : Ends g.Unknown g.partner fun _ => True := by
  unfold partner
  split
  · next hnone => exact absurd hnone h
  · exact (ends_pick _ _).bind fun _ _ => Ends.pure trivial

/-- An operation is one deeper than what its operands may be.  A correlation needs a partner. -/
theorem ends_operation (hg : g.CanChoose) (hs : s.Feeds g (Grown (n + 1))) :
    ∀ op, (op = .correlation → g.symbols ≠ []) →
      Ends g.Unknown (g.operation kind s op) (Grown (n + 2))
  | .leaf, _ => (ends_leaf hg kind).mono fun _ h => h.grown (n + 1)
  | .unary op, _ => (ends_operand hs 0 kind).bind fun _ ha => Ends.pure (.unary op ha)
  | .arithmetic op, _ =>
    (ends_operand hs 0 kind).bind fun _ ha =>
      (ends_operand hs 1 kind).bind fun _ hb => Ends.pure (.binary (by simp) ha hb)
  | .percent, _ =>
    (ends_operand hs 0 kind).bind fun _ ha =>
      (ends_numericOperand hg hs 1).bind fun _ hb => Ends.pure (.binary (by simp) ha hb)
  | .choice, _ =>
    (ends_operand hs 0 .boolean).bind fun _ hc =>
      (ends_operand hs 1 kind).bind fun _ ha =>
        (ends_operand hs 2 kind).bind fun _ hb => Ends.pure (.choice hc ha hb)
  | .lag, _ =>
    (ends_quote hg kind).bind fun _ ⟨f, hf⟩ =>
      (ends_operand hs 1 .integer).bind fun _ hb => Ends.pure (hf ▸ .lag f hb)
  | .statistic statistic, _ =>
    (ends_quote hg kind).bind fun _ ⟨f, hf⟩ =>
      (ends_operand hs 1 .integer).bind fun _ hb =>
        (ends_operand hs 2 .integer).bind fun _ hc => Ends.pure (hf ▸ .quoted (by simp) f hb hc)
  | .ema, _ =>
    (ends_quote hg kind).bind fun _ ⟨f, hf⟩ =>
      (ends_operand hs 1 .integer).bind fun _ hb =>
        (ends_operand hs 2 .integer).bind fun _ hc =>
          ends_smoothing.bind fun _ hd => Ends.pure (hf ▸ .ema f hb hc (hd.grown n))
  | .rsi, _ =>
    (ends_operand hs 0 .integer).bind fun _ ha =>
      (ends_operand hs 1 .integer).bind fun _ hb => Ends.pure (.binary (by simp) ha hb)
  | .correlation, hsymbols =>
    (ends_partner (hsymbols rfl)).bind fun partner _ =>
      (ends_quote hg kind).bind fun _ ⟨f, hf⟩ =>
        (ends_operand hs 1 .integer).bind fun _ hb =>
          (ends_operand hs 2 .integer).bind fun _ hc =>
            Ends.pure (hf ▸ .quoted (by simp) f hb hc)

/-- Without symbols no correlation is offered. -/
theorem symbols_ne_nil {name : String} (hname : name ∈ (g.numericTable kind).names)
    (hop : NumericOperation.ofName? name = some .correlation) : g.symbols ≠ [] := by
  have hwords : ∀ p ∈ NumericOperation.named, p.2 = .correlation → p.1 ∈ ["corr"] := by
    decide
  intro hnone
  unfold numericTable at hname
  simp only [hnone, List.isEmpty_nil, if_true] at hname
  exact (mem_names_of_without hname).2 (hwords _ (mem_named hop) rfl)

theorem ends_numericNode (hg : g.CanChoose) (hs : s.Grows g (n + 1)) (hk : kind.isNumeric = true) :
    Ends g.Unknown (g.numericNode kind s) (Grown (n + 2)) := by
  have hkind : kind ∈ [Kind.integer, .float] := by
    cases kind with
    | integer => exact List.mem_cons_self
    | float => exact List.mem_cons_of_mem _ List.mem_cons_self
    | boolean | integerQuote | floatQuote => cases hk
  refine (ends_choose (hg.numericOperation kind hkind)).bind
    fun name hname => ?_
  cases hop : NumericOperation.ofName? name with
  | none => exact Ends.throw (.numericOperation kind hname hop)
  | some op =>
    refine ends_operation hg hs.feeds op ?_
    rintro rfl
    exact symbols_ne_nil (mem_names_of_positive hname) hop

/-! ## Trees -/

/-- Whether new operands, if there are any, are made within a depth. -/
def GrowsTo (g : Generator) (n : ℕ) (grow : Option (Kind → Draw Expr)) : Prop :=
  ∀ f, grow = some f → ∀ kind, Ends g.Unknown (f kind) (Grown n)

variable {grow : Option (Kind → Draw Expr)}

theorem ends_branchWith (hg : g.CanChoose) (kind : Kind) (hgrow : g.GrowsTo (n + 1) grow) :
    Ends g.Unknown (g.branchWith kind none grow) (Grown (n + 2)) := by
  have hleaf : Ends g.Unknown (g.leaf kind) (Grown (n + 2)) :=
    (ends_leaf hg kind).mono fun _ h => h.grown (n + 1)
  refine Ends.ite (fun _ => ?_) fun _ => Ends.ite (fun hk => ?_) fun _ => hleaf
  · cases grow with
    | none => exact (ends_leafComparison hg).mono fun _ h => h.mono (by omega)
    | some f => exact ends_booleanNode hg ⟨rfl, hgrow f rfl⟩
  · have hnudged : Ends g.Unknown (nudged none kind) (· = none) := Ends.pure rfl
    refine hnudged.bind fun found hfound => ?_
    subst hfound
    cases grow with
    | none => exact hleaf
    | some f => exact ends_numericNode hg ⟨rfl, hgrow f rfl⟩ hk

theorem ends_branches (level : ℤ) : Ends g.Unknown (branches level) fun _ => True :=
  Ends.ite (fun _ => Ends.pure trivial) fun _ => ends_unit.bind fun _ _ => Ends.pure trivial

theorem ends_treeWith (hg : g.CanChoose) (kind : Kind) (level : ℤ)
    (hgrow : g.GrowsTo (n + 1) grow) :
    Ends g.Unknown (g.treeWith kind level none grow) (Grown (n + 2)) :=
  (ends_branches level).bind fun _ _ =>
    Ends.ite (fun _ => ends_branchWith hg kind hgrow) fun _ =>
      (ends_leaf hg kind).mono fun _ h => h.grown (n + 1)

/-- New operands are one deeper than the number of levels that are left. -/
theorem growsTo_operandsAt (hg : g.CanChoose) (room : ℕ) (level : ℤ) :
    g.GrowsTo (room + 1) (g.operandsAt room level) := by
  induction room generalizing level with
  | zero => exact fun f h => by cases h
  | succ room ih =>
    intro f h kind
    cases h
    exact ends_treeWith hg kind level (ih (level + 1))

theorem ends_branch (hg : g.CanChoose) (kind : Kind) (level : ℤ) :
    Ends g.Unknown (g.branch kind level none) fun e =>
      (e.depth : ℤ) ≤ max 2 (g.settings.maxLevel + 3 - level) := by
  refine (ends_branchWith hg kind (growsTo_operandsAt hg (g.room level) level)).mono fun e he => ?_
  have hdepth := he.depth
  unfold room at hdepth
  omega

theorem ends_tree (hg : g.CanChoose) (kind : Kind) (level : ℤ) :
    Ends g.Unknown (g.tree kind level none) fun e =>
      (e.depth : ℤ) ≤ max 2 (g.settings.maxLevel + 2 - level) := by
  have hgrow := growsTo_operandsAt hg (g.room (level + 1)) (level + 1)
  refine (ends_treeWith hg kind level hgrow).mono fun e he => ?_
  have hdepth := he.depth
  unfold room at hdepth
  omega

end Generator

/-! ## All runs -/

/-- Whether a random tree is made within a depth.  It is, unless a name is drawn that stands for nothing;
and it always is where no name of positive weight does. -/
structure Generator.MakesWithin (g : Generator) (m : Draw Expr) (n : ℤ) : Prop where
  ends : Ends g.Unknown m fun e => (e.depth : ℤ) ≤ n
  makes : g.KnowsNames → ∀ d, d.InUnit → ∃ e d', m.run.run d = (.ok e, d') ∧ (e.depth : ℤ) ≤ n

theorem Generator.makesWithin_of_ends {g : Generator} {m : Draw Expr} {n : ℤ}
    (h : Ends g.Unknown m fun e => (e.depth : ℤ) ≤ n) : g.MakesWithin m n where
  ends := h
  makes hknows _ hd := h.exists_ok hknows.not_unknown hd

section Strategies

variable {g : Generators} {s : Strategy} {d d' : Draws}

/-- The rules of a random strategy are the simplified forms of two random trees. -/
theorem Strategy.run_of_random (hrun : (Strategy.random g).run.run d = (.ok s, d')) :
    ∃ buy sell d₁ d₂, (g.buy.branch .boolean 0 none).run.run d = (.ok buy, d₁) ∧
      (g.sell.branch .boolean 0 none).run.run d₁ = (.ok sell, d₂) ∧
      buy.simplify = .ok s.rules.buy ∧ sell.simplify = .ok s.rules.sell := by
  obtain ⟨buy, d₁, hbuy, hrun⟩ := run_bind_eq_ok hrun
  obtain ⟨sell, d₂, hsell, hrun⟩ := run_bind_eq_ok hrun
  obtain ⟨hsbuy, hssell⟩ := Strategy.simplify_of_ofRules hrun
  exact ⟨buy, sell, d₁, d₂, hbuy, hsell, hsbuy, hssell⟩

/-- A rule starts at level 0. -/
theorem Generator.depth_of_rule {g : Generator} (hg : g.CanChoose)
    (hsettings : g.settings.validate = .ok g.settings) (hd : d.InUnit) {rule : Expr}
    (hrun : (g.branch .boolean 0 none).run.run d = (.ok rule, d')) :
    (rule.depth : ℤ) ≤ g.settings.maxLevel + 3 ∧ d'.InUnit := by
  obtain ⟨hdepth, hunit⟩ := (Generator.ends_branch hg .boolean 0).ok hd hrun
  have hlevel := BreedingSettings.one_le_maxLevel hsettings
  exact ⟨by omega, hunit⟩

end Strategies

/-- Random trees are made, whatever numbers of the unit interval are drawn, and they are no deeper than
the levels that are left allow.  The two rules of a random strategy are such trees before they are
simplified, and no deeper afterwards. -/
theorem generation_ends_within_depth (g : Generators)
    (hg : ∀ h ∈ [g.buy, g.sell], h.CanChoose ∧ h.settings.validate = .ok h.settings) :
    (∀ h ∈ [g.buy, g.sell], ∀ (kind : Kind) (level : ℤ),
      h.MakesWithin (h.branch kind level none) (max 2 (h.settings.maxLevel + 3 - level)) ∧
      h.MakesWithin (h.tree kind level none) (max 2 (h.settings.maxLevel + 2 - level))) ∧
    ∀ d s d', d.InUnit → (Strategy.random g).run.run d = (.ok s, d') →
      ∃ buy sell d₁ d₂, (g.buy.branch .boolean 0 none).run.run d = (.ok buy, d₁) ∧
        (g.sell.branch .boolean 0 none).run.run d₁ = (.ok sell, d₂) ∧
        buy.simplify = .ok s.rules.buy ∧ sell.simplify = .ok s.rules.sell ∧
        (buy.depth : ℤ) ≤ g.buy.settings.maxLevel + 3 ∧ s.rules.buy.depth ≤ buy.depth ∧
        (sell.depth : ℤ) ≤ g.sell.settings.maxLevel + 3 ∧ s.rules.sell.depth ≤ sell.depth := by
  refine ⟨fun h hh kind level => ⟨?_, ?_⟩, fun d s d' hd hrun => ?_⟩
  · exact Generator.makesWithin_of_ends (Generator.ends_branch (hg h hh).1 kind level)
  · exact Generator.makesWithin_of_ends (Generator.ends_tree (hg h hh).1 kind level)
  · obtain ⟨hbuy, hvalid⟩ := hg g.buy List.mem_cons_self
    obtain ⟨hsell, hvalid'⟩ := hg g.sell (List.mem_cons_of_mem _ List.mem_cons_self)
    obtain ⟨buy, sell, d₁, d₂, hrbuy, hrsell, hsbuy, hssell⟩ := Strategy.run_of_random hrun
    obtain ⟨hdepth, hd₁⟩ := Generator.depth_of_rule hbuy hvalid hd hrbuy
    obtain ⟨hdepth', -⟩ := Generator.depth_of_rule hsell hvalid' hd₁ hrsell
    exact ⟨buy, sell, d₁, d₂, hrbuy, hrsell, hsbuy, hssell, hdepth,
      Expr.shrinking_depth.simplify hsbuy, hdepth', Expr.shrinking_depth.simplify hssell⟩

/-- With the default weights a tree is made at the last level, and a strategy. -/
theorem generation_ends_within_depth_default :
    let g : Generators := ⟨{}, { allowHeld := true }⟩
    let tape := Draws.ofTape #[0.25, 0.75, 0.125]
    (∃ e d', (g.buy.tree .float 8 none).run.run tape = (.ok e, d') ∧ (e.depth : ℤ) ≤ 2) ∧
      ∃ (s : Strategy) (d' : Draws) (buy sell : Expr),
        (Strategy.random g).run.run tape = (.ok s, d') ∧ buy.simplify = .ok s.rules.buy ∧
          sell.simplify = .ok s.rules.sell ∧ (buy.depth : ℤ) ≤ 11 ∧ (sell.depth : ℤ) ≤ 11 := by
  intro g tape
  have hg : ∀ h ∈ [g.buy, g.sell], h.CanChoose ∧ h.settings.validate = .ok h.settings := by
    simp only [List.forall_mem_cons]
    exact ⟨⟨by decide +kernel, rfl⟩, ⟨by decide +kernel, rfl⟩, fun h hh => by cases hh⟩
  have hknows : g.buy.KnowsNames :=
    ⟨by decide +kernel, by decide +kernel, by decide +kernel,
      fun kind => by cases kind <;> decide +kernel⟩
  have hunit : tape.InUnit := Draws.inUnit_ofTape (by decide +kernel)
  obtain ⟨htrees, hstrategies⟩ := generation_ends_within_depth g hg
  refine ⟨(htrees g.buy List.mem_cons_self .float 8).2.makes hknows tape hunit, ?_⟩
  have hsome : ((Strategy.random g).run.run tape).1.toOption.isSome = true := by
    decide +kernel
  cases hresult : ((Strategy.random g).run.run tape).1 with
  | error e =>
    rw [hresult] at hsome
    cases hsome
  | ok s =>
    obtain ⟨d', hrun⟩ := exists_run_eq hresult
    obtain ⟨buy, sell, _, _, -, -, hsbuy, hssell, hdepth, -, hdepth', -⟩ :=
      hstrategies tape s d' hunit hrun
    exact ⟨s, d', buy, sell, hrun, hsbuy, hssell, hdepth, hdepth'⟩

/-- One of two BOOLEAN operations of the same weight is known, and the other one is drawn. -/
theorem generation_fails_of_unknown_name :
    let g : Generator := { weights := { booleanOperations := [("not", 1), ("xor", 1)] } }
    let tape := Draws.ofTape #[0.75]
    g.CanChoose ∧ g.weights.validate = .ok g.weights ∧ g.settings.validate = .ok g.settings ∧
      tape.InUnit ∧
      ((g.branch .boolean 8 none).run.run tape).1 = .error (.unknownName "xor") := by
  intro g tape
  refine ⟨by decide +kernel, rfl, rfl, Draws.inUnit_ofTape (by decide +kernel), ?_⟩
  decide +kernel

end TradeRules
