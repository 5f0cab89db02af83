import TradeRules.Proofs.Breeding.TreeFamilies

/-!
# Random trees are well typed

A generator asked for a tree of a kind yields a well-typed tree of that kind, whatever numbers are drawn
and whatever model it follows (`yields_tree`, `yields_branch`).  The one thing that the tables have to grant
is that the quotes for FLOAT statistics are prices (`Generator.KnowsQuotes`): a name in any other table
that the generator does not know makes it fail, but the volume among the prices would not.

The well-typed trees are a family that the generator keeps to (`keeps_wellTyped`): of the operations that it
chooses from, each has results of the kind that is asked for (`fits_of_numericTable`).
-/

namespace TradeRules

open Draw

/-- Whether the FLOAT quotes of a generator are the four prices. -/
def Generator.KnowsQuotes (g : Generator) : Prop :=
  ∀ name ∈ g.weights.floatQuotes.names, name ∈ ["open", "high", "low", "close"]

namespace Generator

variable {g : Generator} {kind k : Kind}

/-! ## Leaves -/

theorem yields_literal (kind : Kind) (value : Numeral) :
    Yields (literal kind value) (·.HasKind kind) :=
  (yields_built fun _ hl => Literal.kind_of_build hl).bind
    fun _ hl => Yields.pure (Expr.hasKind_number.mpr hl)

theorem kind_of_price {name : String} {f : Field} (hname : name ∈ ["open", "high", "low", "close"])
    (h : Field.ofWord? name = some f) : f.kind = .floatQuote := by
  simp only [List.mem_cons, List.not_mem_nil, or_false] at hname
  rcases hname with rfl | rfl | rfl | rfl <;> cases h <;> rfl

theorem yields_leaf (hg : g.KnowsQuotes) (kind : Kind) : Yields (g.leaf kind) (·.HasKind kind) := by
  cases kind with
  | boolean => exact (yields_below 2).then fun _ => Yields.pure (Expr.hasKind_truth _)
  | integer =>
    refine (yields_choose _).bind fun name _ => ?_
    cases IntegerLeaf.ofName? name with
    | none => exact Yields.throw id
    | some l =>
      cases l with
      | number => exact (yields_below _).then fun _ => yields_literal _ _
      | held => exact Yields.pure (Expr.hasKind_leaf.mpr rfl)
      | order => exact Yields.pure (Expr.hasKind_leaf.mpr rfl)
      | date part => exact Yields.pure (Expr.hasKind_leaf.mpr rfl)
  | float => exact yields_unit.then fun _ => yields_literal _ _
  | integerQuote => exact Yields.pure (Expr.hasKind_leaf.mpr rfl)
  | floatQuote =>
    refine (yields_choose _).bind fun name hname => yields_built fun e he => ?_
    unfold Expr.buildQuote at he
    split at he
    · next f hf =>
      cases he
      exact Expr.hasKind_leaf.mpr (kind_of_price (hg name hname) hf)
    · cases he

/-- The quote of a kind of numbers yields that kind. -/
theorem ofQuote?_quoteKind (hk : k.isNumeric = true) : (quoteKind k).ofQuote? = some k := by
  cases k with
  | integer => rfl
  | float => rfl
  | boolean => cases hk
  | integerQuote => cases hk
  | floatQuote => cases hk

theorem yields_numericKind : Yields g.numericKind (·.isNumeric = true) := by
  refine (yields_choose _).bind fun name _ => Yields.pure ?_
  split_ifs <;> rfl

theorem yields_nudge (l : Literal) (kind : Kind) : Yields (nudge l kind) (·.HasKind kind) :=
  yields_unit.then fun _ => yields_unit.then fun _ =>
    Yields.ite (fun _ => yields_literal _ _) fun _ => yields_literal _ _

theorem yields_smoothing : Yields smoothing (·.HasKind .float) :=
  yields_unit.then fun _ => yields_literal _ _

/-! ## Numeric operations -/

/-- Whether an operation has results of a kind of numbers. -/
def Fits (kind : Kind) : NumericOperation → Prop
  | .unary op => op ≠ .not
  | .rsi | .correlation => kind = .float
  | _ => True

/-- The operations that have a name. -/
theorem mem_named {name : String} {op : NumericOperation}
    (h : NumericOperation.ofName? name = some op) : (name, op) ∈ NumericOperation.named := by
  obtain ⟨before, after, hsplit, -⟩ := List.lookup_eq_some_iff.mp h
  rw [hsplit]
  exact List.mem_append_right _ List.mem_cons_self

theorem mem_names_of_without {table : WeightTable} {names : List String} {name : String}
    (h : name ∈ (table.without names).names) : name ∈ table.names ∧ name ∉ names := by
  obtain ⟨entry, hentry, rfl⟩ := List.mem_map.mp h
  obtain ⟨hmem, hnot⟩ := List.mem_filter.mp hentry
  exact ⟨List.mem_map_of_mem hmem, by simpa using hnot⟩

/-- What the table of a kind offers has results of the kind. -/
theorem fits_of_numericTable {name : String} {op : NumericOperation} (hk : kind.isNumeric = true)
    (hname : name ∈ (g.numericTable kind).names) (hop : NumericOperation.ofName? name = some op) :
    Fits kind op := by
  have hnamed := mem_named hop
  have hwords : ∀ p ∈ NumericOperation.named,
      p.2 ≠ .unary .not ∧ (p.2 = .rsi ∨ p.2 = .correlation → p.1 ∈ floatOnly) := by
    decide
  obtain ⟨hnot, hfloat⟩ := hwords _ hnamed
  have hkind : op = .rsi ∨ op = .correlation → kind = .float := by
    intro h
    have hmem := hfloat h
    cases kind with
    | integer =>
      unfold numericTable at hname
      simp only [if_true] at hname
      split_ifs at hname
      · exact absurd hmem (mem_names_of_without (mem_names_of_without hname).1).2
      · exact absurd hmem (mem_names_of_without hname).2
    | float => rfl
    | boolean => cases hk
    | integerQuote => cases hk
    | floatQuote => cases hk
  cases op with
  | unary op =>
    rintro rfl
    exact hnot rfl
  | rsi => exact hkind (.inl rfl)
  | correlation => exact hkind (.inr rfl)
  | leaf => trivial
  | arithmetic op => trivial
  | percent => trivial
  | choice => trivial
  | lag => trivial
  | statistic st => trivial
  | ema => trivial

/-! ## Trees -/

/-- The well-typed trees. -/
def wellTyped : TreeFamily where
  tree kind e := e.HasKind kind
  number kind := kind.isNumeric = true
  boolean _ := True
  numeric := Fits

/-- Each node of a random tree is well typed. -/
theorem keeps_wellTyped (hg : g.KnowsQuotes) : wellTyped.Keeps g where
  leaf _ := yields_leaf hg _
  numericKind := yields_numericKind
  isNumeric hk := hk
  declared {j k a b} ha hj hb := by
    obtain rfl : k = j := Except.ok.inj (ha.declaredKind.symm.trans hj)
    exact hb
  booleanName _ _ := trivial
  greater _ := trivial
  numericName hk hname hop := fits_of_numericTable hk hname.mem_names hop
  not _ ha := Expr.hasKind_not ha
  connective _ ha hb := Expr.hasKind_connective ha hb
  comparison _ hk ha hb := Expr.hasKind_comparison ha hb hk
  unary hfit hk ha := Expr.hasKind_function hfit ha hk
  arithmetic _ hk ha hb := Expr.hasKind_arithmetic ha hb hk
  percent _ hk hj ha hb := Expr.hasKind_percent ha hb hk hj
  choice _ hk hc ha hb := Expr.hasKind_choice hc ha hb (Kind.isQuote_of_isNumeric hk)
  lag _ hk hq ho := Expr.hasKind_lag (ofQuote?_quoteKind hk) hq ho
  statistic _ hk hq hp ho := Expr.hasKind_statistic (ofQuote?_quoteKind hk) hq hp ho
  ema _ hk hq hp ho :=
    Expr.hasKind_ema (ofQuote?_quoteKind hk) hq hp ho (Expr.hasKind_leaf.mpr rfl)
  rsi hfit hp ho := by
    obtain rfl := hfit
    exact Expr.hasKind_rsi hp ho
  correlation hfit _ _ hq hp ho := by
    obtain rfl := hfit
    exact Expr.hasKind_correlation rfl hq hp ho

/-- The operands of a well-typed tree have the kinds that they declare. -/
theorem guides_of_hasKind {m : Expr} (hm : m.HasKind k) : wellTyped.Guides m where
  operand {a k} ha hk := by
    obtain ⟨j, hj⟩ := hm.of_mem_operands ha
    obtain rfl : j = k := Except.ok.inj (hj.declaredKind.symm.trans hk)
    exact hj
  number _ _ hk := hk
  nudge _ kind := yields_nudge _ kind

variable {model : Option Expr}

theorem yields_branch (hg : g.KnowsQuotes) (level : Int)
    (hmodel : ∀ m, model = some m → ∃ k, m.HasKind k) :
    Yields (g.branch kind level model) (·.HasKind kind) :=
  (keeps_wellTyped hg).branch level fun m hm => (hmodel m hm).elim fun _ => guides_of_hasKind

theorem yields_tree (hg : g.KnowsQuotes) (level : Int)
    (hmodel : ∀ m, model = some m → ∃ k, m.HasKind k) :
    Yields (g.tree kind level model) (·.HasKind kind) :=
  (keeps_wellTyped hg).tree level fun m hm => (hmodel m hm).elim fun _ => guides_of_hasKind

/-- A random tree or leaf that is asked for in a kind has the kind, at every level and for every stream of
numbers, whatever well-typed model it is made after. -/
theorem random_trees_have_kind (g : Generator) (hg : g.KnowsQuotes) (kind : Kind) (level : ℤ)
    (model : Option Expr) (hmodel : ∀ m, model = some m → ∃ k, m.HasKind k) {d d' : Draws} {e : Expr}
    (hrun : (g.tree kind level model).run.run d = (.ok e, d') ∨
      (g.branch kind level model).run.run d = (.ok e, d') ∨
      (g.leaf kind).run.run d = (.ok e, d')) :
    e.HasKind kind := by
  rcases hrun with hrun | hrun | hrun
  · exact (yields_tree hg level hmodel).ok hrun
  · exact (yields_branch hg level hmodel).ok hrun
  · exact (yields_leaf hg kind).ok hrun

/-- Made after `corr("AAA",volume,day(),month())`, an average of prices takes over the period and the
offset but not the quote. -/
theorem random_trees_have_kind_average :
    let model : Expr :=
      .ternary (.correlation "AAA") (.quote .volume) (.leaf (.date .day)) (.leaf (.date .month))
    let average : Expr :=
      .ternary (.statistic .average) (.quote .high) (.leaf (.date .day)) (.leaf (.date .month))
    ∃ d', (Generator.tree {} .float 0 (some model)).run.run (Draws.ofTape #[0.8125, 0.375]) =
      (.ok average, d') ∧ average.HasKind .float := by
  intro model average
  have hknows : Generator.KnowsQuotes {} := by
    unfold KnowsQuotes
    decide
  have hmodel : ∀ m, some model = some m → ∃ k, m.HasKind k := by
    rintro m ⟨⟩
    exact ⟨.float, by rfl⟩
  have hresult : ((Generator.tree {} .float 0 (some model)).run.run
      (Draws.ofTape #[0.8125, 0.375])).1 = .ok average := by
    decide +kernel
  obtain ⟨d', hrun⟩ := exists_run_eq hresult
  exact ⟨d', hrun, random_trees_have_kind {} hknows .float 0 (some model) hmodel (.inl hrun)⟩

end Generator

end TradeRules
