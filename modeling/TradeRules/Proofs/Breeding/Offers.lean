import TradeRules.Proofs.Breeding.Names

/-!
# What the weights offer

The tables of a generator say what its random trees are made of: an entry of weight zero is never chosen.
`Generator.Offers` is the grammar of the trees that they offer.  It follows the kind that is asked for,
since some operations are FLOAT only and the statistics of FLOAT read other quotes than those of INTEGER.
`Generator.OffersRoot` says the same of a single node.

A random tree that follows no model is one of the grammar, whatever numbers are drawn
(`random_trees_are_offered`).  The tables have to give some comparison a positive weight.  Below the last
level a truth value is a comparison of leaves, and it is made with `>` when the table has no comparison.
-/

namespace TradeRules

open Draw

/-! ## What names stand for -/

/-- The name of a BOOLEAN operation. -/
def BooleanOperation.name : BooleanOperation → String
  | .not => Unary.not.word
  | .connective op => op.word
  | .comparison op => op.sign

/-- The name of a numeric operation. -/
def NumericOperation.name : NumericOperation → String
  | .leaf => "terminal"
  | .unary op => op.word
  | .arithmetic op => op.sign
  | .percent => "percent"
  | .choice => "if"
  | .lag => "lag"
  | .statistic s => s.word
  | .ema => "ema"
  | .rsi => "rsi"
  | .correlation => "corr"

theorem BooleanOperation.name_of_ofName? {name : String} {op : BooleanOperation}
    (h : ofName? name = some op) : name = op.name := by
  unfold ofName? at h
  split_ifs at h with hnot hand hor
  · cases h
    exact hnot
  · cases h
    exact hand
  · cases h
    exact hor
  · obtain ⟨op, hop, rfl⟩ := Option.map_eq_some_iff.mp h
    exact Comparison.sign_of_ofName? hop

theorem NumericOperation.name_of_ofName? {name : String} {op : NumericOperation}
    (h : ofName? name = some op) : name = op.name := by
  have hnames : ∀ p ∈ named, p.1 = p.2.name := by decide
  exact hnames _ (Generator.mem_named h)

theorem IntegerLeaf.ofName?_name (l : IntegerLeaf) : ofName? l.name = some l := by
  cases l with
  | number | held | order => rfl
  | date part => cases part <;> rfl

theorem BooleanOperation.ofName?_name (op : BooleanOperation) : ofName? op.name = some op := by
  cases op with
  | not => rfl
  | connective op => cases op <;> rfl
  | comparison op => cases op <;> rfl

theorem Field.ofWord?_word (f : Field) : ofWord? f.word = some f := by
  cases f <;> rfl

theorem NumericOperation.ofName?_name {op : NumericOperation} (h : op ≠ .unary .not) :
    ofName? op.name = some op := by
  cases op with
  | unary op =>
    cases op with
    | not => exact absurd rfl h
    | sqrt | abs => rfl
  | arithmetic op => cases op <;> rfl
  | statistic s => cases s <;> rfl
  | leaf | percent | choice | lag | ema | rsi | correlation => rfl

namespace Generator

/-! ## The grammar of the tables -/

/-- Whether an INTEGER leaf has a positive weight and may be read. -/
structure OffersLeaf (g : Generator) (l : IntegerLeaf) : Prop where
  weighs : g.weights.integerLeaves.Weighs l.name
  held : l = .held → g.allowHeld = true
  order : l = .order → g.allowOrder = true

/-- Whether operands of any numeric kind may have the given one. -/
def OffersNumber (g : Generator) (kind : Kind) : Prop :=
  kind = .float ∧ g.weights.numericOperands.Weighs "float" ∨
    kind = .integer ∧ ∃ name, name ≠ "float" ∧ g.weights.numericOperands.Weighs name

def OffersBoolean (g : Generator) (op : BooleanOperation) : Prop :=
  g.weights.booleanOperations.Weighs op.name

def OffersNumeric (g : Generator) (op : NumericOperation) : Prop :=
  g.weights.numericOperations.Weighs op.name

/-- The trees of a kind that the tables offer. -/
inductive Offers (g : Generator) : Kind → Expr → Prop
  | real {x : Float} {h : x.isFinite = true} : Offers g .float (.number (.real x h))
  | whole {n : ℤ} {h : (Double.ofInt n).isFinite = true} :
    g.OffersLeaf .number → Offers g .integer (.number (.whole n h))
  | held : g.OffersLeaf .held → Offers g .integer (countVariable Variables.heldName)
  | order : g.OffersLeaf .order → Offers g .integer (countVariable Variables.orderName)
  | date {part : DatePart} : g.OffersLeaf (.date part) → Offers g .integer (.leaf (.date part))
  | price {f : Field} : g.weights.floatQuotes.Weighs f.word → Offers g .floatQuote (.quote f)
  | volume : Offers g .integerQuote (.quote .volume)
  | not {a : Expr} : g.OffersBoolean .not → Offers g .boolean a → Offers g .boolean (.not a)
  | connective {op : Connective} {a b : Expr} :
    g.OffersBoolean (.connective op) → Offers g .boolean a → Offers g .boolean b →
    Offers g .boolean (.connective op a b)
  | comparison {op : Comparison} {k : Kind} {a b : Expr} :
    g.OffersBoolean (.comparison op) → g.OffersNumber k → Offers g k a → Offers g k b →
    Offers g .boolean (.comparison op a b)
  | unary {op : Unary} {k : Kind} {a : Expr} :
    g.OffersNumeric (.unary op) → op ≠ .not → k.isNumeric = true → Offers g k a →
    Offers g k (.unary op a)
  | arithmetic {op : Arithmetic} {k : Kind} {a b : Expr} :
    g.OffersNumeric (.arithmetic op) → k.isNumeric = true → Offers g k a → Offers g k b →
    Offers g k (.arithmetic op a b)
  | percent {j k : Kind} {a b : Expr} :
    g.OffersNumeric .percent → k.isNumeric = true → g.OffersNumber j → Offers g k a →
    Offers g j b → Offers g k (.binary .percent a b)
  | choice {k : Kind} {c a b : Expr} :
    g.OffersNumeric .choice → k.isNumeric = true → Offers g .boolean c → Offers g k a →
    Offers g k b → Offers g k (.choice c a b)
  | lag {k : Kind} {q offset : Expr} :
    g.OffersNumeric .lag → k.isNumeric = true → Offers g (quoteKind k) q →
    Offers g .integer offset → Offers g k (.binary .lag q offset)
  | statistic {s : Statistic} {k : Kind} {q period offset : Expr} :
    g.OffersNumeric (.statistic s) → k.isNumeric = true → Offers g (quoteKind k) q →
    Offers g .integer period → Offers g .integer offset →
    Offers g k (.ternary (.statistic s) q period offset)
  | ema {k : Kind} {q period offset : Expr} {x : Float} {h : x.isFinite = true} :
    g.OffersNumeric .ema → k.isNumeric = true → Offers g (quoteKind k) q →
    Offers g .integer period → Offers g .integer offset →
    Offers g k (.quaternary .ema q period offset (.number (.real x h)))
  | rsi {period offset : Expr} :
    g.OffersNumeric .rsi → Offers g .integer period → Offers g .integer offset →
    Offers g .float (.binary .rsi period offset)
  | correlation {partner : String} {q period offset : Expr} :
    g.OffersNumeric .correlation → partner ∈ g.symbols.map Symbol.code → Offers g .floatQuote q →
    Offers g .integer period → Offers g .integer offset →
    Offers g .float (.ternary (.correlation partner) q period offset)

/-- Whether the tables offer the root of a tree. -/
def OffersRoot (g : Generator) : Expr → Prop
  | .leaf (.number (.whole ..)) => g.OffersLeaf .number
  | .leaf (.number (.real ..)) => True
  | .leaf (.truth _) => False
  | .leaf (.variable name kind) =>
    kind = .integer ∧ (name = Variables.heldName ∧ g.OffersLeaf .held ∨
      name = Variables.orderName ∧ g.OffersLeaf .order)
  | .leaf (.date part) => g.OffersLeaf (.date part)
  | .leaf (.quote f) => f = .volume ∨ g.weights.floatQuotes.Weighs f.word
  | .unary .not _ => g.OffersBoolean .not
  | .unary op _ => g.OffersNumeric (.unary op)
  | .binary (.arithmetic op) _ _ => g.OffersNumeric (.arithmetic op)
  | .binary (.comparison op) _ _ => g.OffersBoolean (.comparison op)
  | .binary (.connective op) _ _ => g.OffersBoolean (.connective op)
  | .binary .percent _ _ => g.OffersNumeric .percent
  | .binary .lag _ _ => g.OffersNumeric .lag
  | .binary .rsi _ _ => g.OffersNumeric .rsi
  | .ternary .choice _ _ _ => g.OffersNumeric .choice
  | .ternary (.statistic s) _ _ _ => g.OffersNumeric (.statistic s)
  | .ternary (.correlation partner) _ _ _ =>
    g.OffersNumeric .correlation ∧ partner ∈ g.symbols.map Symbol.code
  | .quaternary .ema _ _ _ _ => g.OffersNumeric .ema

variable {g : Generator} {kind k : Kind} {e : Expr}

/-- Every node of a tree that the tables offer is one that they offer. -/
theorem Offers.everywhere (h : g.Offers kind e) : e.Everywhere g.OffersRoot := by
  induction h with
  | real => exact trivial
  | whole hl => exact hl
  | held hl => exact ⟨rfl, .inl ⟨rfl, hl⟩⟩
  | order hl => exact ⟨rfl, .inr ⟨rfl, hl⟩⟩
  | date hl => exact hl
  | price hf => exact .inr hf
  | volume => exact .inl rfl
  | not hop _ iha => exact ⟨hop, iha⟩
  | connective hop _ _ iha ihb => exact ⟨hop, iha, ihb⟩
  | comparison hop _ _ _ iha ihb => exact ⟨hop, iha, ihb⟩
  | @unary op k a hop hne _ _ iha =>
    refine ⟨?_, iha⟩
    cases op with
    | not => exact absurd rfl hne
    | sqrt => exact hop
    | abs => exact hop
  | arithmetic hop _ _ _ iha ihb => exact ⟨hop, iha, ihb⟩
  | percent hop _ _ _ _ iha ihb => exact ⟨hop, iha, ihb⟩
  | choice hop _ _ _ _ ihc iha ihb => exact ⟨hop, ihc, iha, ihb⟩
  | lag hop _ _ _ ihq iha => exact ⟨hop, ihq, iha⟩
  | statistic hop _ _ _ _ ihq iha ihb => exact ⟨hop, ihq, iha, ihb⟩
  | ema hop _ _ _ _ ihq iha ihb => exact ⟨hop, ihq, iha, ihb, trivial⟩
  | rsi hop _ _ iha ihb => exact ⟨hop, iha, ihb⟩
  | correlation hop hpartner _ _ _ ihq iha ihb => exact ⟨⟨hop, hpartner⟩, ihq, iha, ihb⟩

theorem OffersNumber.isNumeric (h : g.OffersNumber k) : k.isNumeric = true := by
  obtain ⟨rfl, -⟩ | ⟨rfl, -⟩ := h
  · rfl
  · rfl

/-- Whether the volume has no weight among the FLOAT quotes. -/
def ReadsPrices (g : Generator) : Prop :=
  ¬g.weights.floatQuotes.Weighs Field.volume.word

theorem KnowsQuotes.readsPrices (hg : g.KnowsQuotes) : g.ReadsPrices := by
  intro hvolume
  have hname := hg _ (hvolume.mem_names)
  revert hname
  decide

/-- The trees of a kind that the tables offer are of that kind, if the FLOAT quotes are prices. -/
theorem Offers.hasKind (hg : g.ReadsPrices) (h : g.Offers kind e) : e.HasKind kind := by
  induction h with
  | real => rfl
  | whole _ => rfl
  | held _ => rfl
  | order _ => rfl
  | date _ => rfl
  | @price f hf =>
    cases f with
    | volume => exact absurd hf hg
    | opening | high | low | closing => rfl
  | volume => rfl
  | not _ _ iha => exact Expr.hasKind_not iha
  | connective _ _ _ iha ihb => exact Expr.hasKind_connective iha ihb
  | comparison _ hk _ _ iha ihb => exact Expr.hasKind_comparison iha ihb hk.isNumeric
  | unary _ hne hk _ iha => exact Expr.hasKind_function hne iha hk
  | arithmetic _ hk _ _ iha ihb => exact Expr.hasKind_arithmetic iha ihb hk
  | percent _ hk hj _ _ iha ihb => exact Expr.hasKind_percent iha ihb hk hj.isNumeric
  | choice _ hk _ _ _ ihc iha ihb =>
    exact Expr.hasKind_choice ihc iha ihb (Kind.isQuote_of_isNumeric hk)
  | lag _ hk _ _ ihq iho => exact Expr.hasKind_lag (ofQuote?_quoteKind hk) ihq iho
  | statistic _ hk _ _ _ ihq ihp iho =>
    exact Expr.hasKind_statistic (ofQuote?_quoteKind hk) ihq ihp iho
  | ema _ hk _ _ _ ihq ihp iho =>
    exact Expr.hasKind_ema (ofQuote?_quoteKind hk) ihq ihp iho (Expr.hasKind_leaf.mpr rfl)
  | rsi _ _ _ ihp iho => exact Expr.hasKind_rsi ihp iho
  | correlation _ _ _ _ _ ihq ihp iho => exact Expr.hasKind_correlation rfl ihq ihp iho

/-! ## Leaves -/

theorem OffersLeaf.of_mem {name : String} {l : IntegerLeaf} (hname : g.integerTable.Weighs name)
    (hl : IntegerLeaf.ofName? name = some l) : g.OffersLeaf l := by
  have hword := IntegerLeaf.name_of_ofName? hl
  obtain ⟨hheld, horder⟩ := allowed_of_integerTable hname.mem_names
  refine ⟨?_, ?_, ?_⟩
  · rw [← hword]
    unfold integerTable at hname
    dsimp only at hname
    split_ifs at hname
    · exact hname
    · exact hname.of_filter
    · exact hname.of_filter
    · exact hname.of_filter.of_filter
  · rintro rfl
    exact hheld hword
  · rintro rfl
    exact horder hword

/-- A number of a kind is offered if whole numbers are. -/
theorem offers_literal (hk : kind = .integer → g.OffersLeaf .number) (value : Numeral) :
    Yields (literal kind value) (g.Offers kind) := by
  refine (yields_built fun _ hl => Literal.kind_of_build hl).bind fun l hl => Yields.pure ?_
  subst hl
  cases l with
  | whole n h => exact .whole (hk rfl)
  | real x h => exact .real

theorem offers_leaf (g : Generator) (hbool : kind ≠ .boolean) :
    Yields (g.leaf kind) (g.Offers kind) := by
  cases kind with
  | boolean => exact absurd rfl hbool
  | integer =>
    refine (yields_choose_weighs _).bind fun name hname => ?_
    cases hl : IntegerLeaf.ofName? name with
    | none => exact Yields.throw id
    | some l =>
      have hoffers := OffersLeaf.of_mem hname hl
      cases l with
      | number => exact (yields_below _).then fun _ => offers_literal (fun _ => hoffers) _
      | held => exact Yields.pure (.held hoffers)
      | order => exact Yields.pure (.order hoffers)
      | date part => exact Yields.pure (.date hoffers)
  | float => exact yields_unit.then fun _ => offers_literal (by rintro ⟨⟩) _
  | integerQuote => exact Yields.pure .volume
  | floatQuote =>
    refine (yields_choose_weighs _).bind fun name hname => yields_built fun e he => ?_
    unfold Expr.buildQuote at he
    split at he
    · next f hf =>
      have hword := List.find?_some hf
      cases he
      exact .price (beq_iff_eq.mp hword ▸ hname)
    · cases he

theorem offers_numericKind (g : Generator) : Yields g.numericKind g.OffersNumber := by
  refine (yields_choose_weighs _).bind fun name hname => Yields.pure ?_
  split_ifs with hfloat
  · exact .inl ⟨rfl, hfloat ▸ hname⟩
  · exact .inr ⟨rfl, name, hfloat, hname⟩

/-- Whether some comparison has a positive weight. -/
def OffersComparison (g : Generator) : Prop :=
  ∃ op : Comparison, g.OffersBoolean (.comparison op)

/-! ## Operations -/

/-- A BOOLEAN operation that is drawn has a weight. -/
theorem offersBoolean_of_name {name : String} {op : BooleanOperation}
    (hname : g.weights.booleanOperations.Weighs name)
    (hop : BooleanOperation.ofName? name = some op) : g.OffersBoolean op := by
  rw [OffersBoolean, ← BooleanOperation.name_of_ofName? hop]
  exact hname

/-- A numeric operation that is drawn for a kind has a weight, whatever else is left out for the kind. -/
theorem offersNumeric_of_name {name : String} {op : NumericOperation}
    (hname : (g.numericTable kind).Weighs name) (hop : NumericOperation.ofName? name = some op) :
    g.OffersNumeric op := by
  rw [OffersNumeric, ← NumericOperation.name_of_ofName? hop]
  unfold numericTable at hname
  dsimp only at hname
  split_ifs at hname
  · exact hname.of_filter.of_filter
  · exact hname.of_filter
  · exact hname.of_filter
  · exact hname

/-! ## Trees -/

/-- The trees that the tables offer. -/
def offered (g : Generator) : TreeFamily where
  tree := g.Offers
  number := g.OffersNumber
  boolean := g.OffersBoolean
  numeric kind op := g.OffersNumeric op ∧ Fits kind op

/-- Each node of a random tree is one that the tables offer. -/
theorem keeps_offered (hg : g.ReadsPrices) (hcomparison : g.OffersComparison) :
    g.offered.Keeps g where
  leaf := offers_leaf g
  numericKind := offers_numericKind g
  isNumeric hk := hk.isNumeric
  declared {j k a b} ha hj hb := by
    obtain rfl : k = j := Except.ok.inj ((ha.hasKind hg).declaredKind.symm.trans hj)
    exact hb
  booleanName := offersBoolean_of_name
  greater hnone := hcomparison.elim fun op hop => absurd hop (hnone op)
  numericName hk hname hop :=
    ⟨offersNumeric_of_name hname hop, fits_of_numericTable hk hname.mem_names hop⟩
  not := .not
  connective := .connective
  comparison := .comparison
  unary hop hk ha := .unary hop.1 hop.2 hk ha
  arithmetic hop hk ha hb := .arithmetic hop.1 hk ha hb
  percent hop hk hj ha hb := .percent hop.1 hk hj ha hb
  choice hop hk hc ha hb := .choice hop.1 hk hc ha hb
  lag hop hk hq ho := .lag hop.1 hk hq ho
  statistic hop hk hq hp ho := .statistic hop.1 hk hq hp ho
  ema hop hk hq hp ho := .ema hop.1 hk hq hp ho
  rsi hop hp ho := by
    obtain rfl := hop.2
    exact .rsi hop.1 hp ho
  correlation hop _ hpartner hq hp ho := by
    obtain rfl := hop.2
    exact .correlation hop.1 hpartner hq hp ho

theorem offers_tree (hg : g.ReadsPrices) (hcomparison : g.OffersComparison) (kind : Kind)
    (level : ℤ) : Yields (g.tree kind level none) (g.Offers kind) :=
  (keeps_offered hg hcomparison).tree level nofun

/-- A random tree that follows no model is made of what the tables offer: it is a tree of their grammar, and
each of its nodes stands in its table with a positive weight. -/
theorem random_trees_are_offered (hg : g.KnowsQuotes) (hcomparison : g.OffersComparison) (kind : Kind)
    (level : ℤ) {d d' : Draws} {e : Expr}
    (hrun : (g.tree kind level none).run.run d = (.ok e, d')) :
    g.Offers kind e ∧ ∀ site ∈ e.sites, g.OffersRoot site.2 := by
  have hoffers : g.Offers kind e :=
    (offers_tree hg.readsPrices hcomparison kind level).ok hrun
  exact ⟨hoffers, Expr.everywhere_iff.mp hoffers.everywhere⟩

/-- A generator of which most weights are zero. -/
def sparse : Generator :=
  { weights :=
      { integerLeaves := [("number", 0.0), ("day", 1.0)]
        floatQuotes := [("open", 0.0), ("close", 1.0)]
        numericOperations := [("terminal", 0.0), ("+", 0.0), ("corr", 1.0)] }
    symbols := [⟨"AAA"⟩] }

/-- It can only make a FLOAT tree with the one operation, the one partner, the one quote and the one leaf
that it has weights for. -/
theorem random_trees_are_offered_sparse :
    let correlation : Expr :=
      .ternary (.correlation "AAA") (.quote .closing) (.leaf (.date .day)) (.leaf (.date .day))
    ∃ d', (sparse.tree .float 0 none).run.run (Draws.ofTape #[0.875]) = (.ok correlation, d') ∧
      sparse.Offers .float correlation ∧ ∀ site ∈ correlation.sites, sparse.OffersRoot site.2 := by
  intro correlation
  have hknows : sparse.KnowsQuotes := by
    unfold KnowsQuotes
    decide
  have hcomparison : sparse.OffersComparison :=
    ⟨.less, 1111, List.mem_of_getElem? (i := 5) rfl, by decide +kernel⟩
  have hresult : ((sparse.tree .float 0 none).run.run (Draws.ofTape #[0.875])).1 =
      .ok correlation := by
    decide +kernel
  obtain ⟨d', hrun⟩ := exists_run_eq hresult
  exact ⟨d', hrun, random_trees_are_offered hknows hcomparison .float 0 hrun⟩

end Generator

end TradeRules
