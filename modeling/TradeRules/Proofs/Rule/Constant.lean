import TradeRules.Proofs.Rule.Meaning

/-!
# Constant folding

A tree whose leaves are literals folds to one literal, which has the value of the tree in every
environment (`folds_to_value`).  Simplification computes with the doubles that evaluation computes with,
so the two values are the same double, whatever the size of the literals.

Comparisons are the exception.  They compare whole literals exactly and not as doubles, so a comparison
folds to its value when the literals that its operands fold to are exactly representable
(`FoldsExactly`).  Beyond that the two can differ (`folded_comparison_differs`).

The proof goes from the leaves up with one lemma for each operation.  A quote function has no place in
such a tree, since its first operand names a field.  The index of relative strength is the one operation
that reads quotes without a field among its operands.  It has no value unless there is market data, and
where there is some a tree with an index is not constant.
-/

namespace TradeRules

open Double

/-- Whether a leaf is a literal. -/
def Leaf.IsLiteral : Leaf → Prop
  | .number _ | .truth _ => True
  | .variable .. | .quote _ | .date _ => False

theorem Leaf.IsLiteral.number_or_truth :
    ∀ {l : Leaf}, l.IsLiteral → (∃ n, l = .number n) ∨ ∃ t, l = .truth t
  | .number n, _ => .inl ⟨n, rfl⟩
  | .truth t, _ => .inr ⟨t, rfl⟩

/-- A literal has one value in all environments. -/
theorem Leaf.IsLiteral.evaluate_eq {l : Leaf} (h : l.IsLiteral) (env env' : Environment) :
    (Expr.leaf l).evaluate env = (Expr.leaf l).evaluate env' := by
  rcases h.number_or_truth with ⟨n, rfl⟩ | ⟨t, rfl⟩ <;> rfl

/-- A finite result of the kind of a literal is folded, to a literal that has it as its value. -/
theorem Literal.fold_of_finite {n : Literal} {x : Float} (h : (n.kind.settle x).isFinite = true) :
    ∃ m, n.fold x = some (Expr.number m) ∧ m.toDouble = n.kind.settle x := by
  have hx := Kind.isFinite_of_settle h
  have hm : ∃ m, ofKind? n.kind x = some m := by
    cases n with
    | whole n hn =>
      exact ⟨.whole (truncate x) (ofInt_truncate hx).1,
        by simp [kind, ofKind?, ofInt?, hx, (ofInt_truncate hx).1]⟩
    | real y hy => exact ⟨.real x hx, by simp [kind, ofKind?, ofDouble?, hx]⟩
  obtain ⟨m, hm⟩ := hm
  exact ⟨m, by rw [fold, hm, Option.map_some], (Expr.Literal.ofKind?_spec hm).2.1⟩

namespace Expr

variable {env : Environment} {a b c e : Expr} {j k : Kind} {p q r : Leaf} {x : Float}

/-- What makes a node part of a constant. -/
structure Constant (env : Environment) (e : Expr) : Prop where
  /-- A leaf is a literal. -/
  literal : ∀ l, e = .leaf l → l.IsLiteral
  /-- The subtree has a finite value. -/
  defined : e.Defined env
  /-- An index of relative strength is no constant where there is market data. -/
  dataless : ∀ a b, e = .binary .rsi a b → env.source = none

/-- Whether the literals that a comparison compares are exactly representable. -/
def FoldsExactly (e : Expr) : Prop :=
  ∀ op a b n, e = comparison op a b →
    a.simplify = .ok (number n) ∨ b.simplify = .ok (number n) → n.IsExact

/-- A literal that a tree folds to. -/
structure FoldsTo (e : Expr) (l : Leaf) : Prop where
  literal : l.IsLiteral
  simplified : e.simplify = .ok (.leaf l)
  /-- In every environment the tree has the value of the literal. -/
  value : ∀ env, e.evaluate env = (leaf l).evaluate env

theorem Defined.isFinite (h : e.Defined env) (hx : e.evaluate env = .ok x) : x.isFinite = true := by
  obtain ⟨y, hy, fy⟩ := h
  rw [hx] at hy
  cases hy
  exact fy

/-- A field is no constant, and no other tree is of a kind of quotes. -/
theorem not_constant_of_isQuote (hk : e.HasKind k) (hquote : k.isQuote = true) :
    ¬e.Constant env := by
  obtain ⟨f, rfl, -⟩ := hk.eq_quote hquote
  exact fun h => h.literal _ rfl

namespace FoldsTo

/-- A tree of numbers folds to a number of its kind. -/
theorem number (h : FoldsTo e p) (hk : e.HasKind k) (hnum : k.isNumeric = true) :
    ∃ n, p = .number n ∧ n.kind = k ∧ ∀ env, e.evaluate env = .ok n.toDouble := by
  have hkind := hasKind_leaf.mp (hk.of_simplify h.simplified)
  rcases h.literal.number_or_truth with ⟨n, rfl⟩ | ⟨t, rfl⟩
  · exact ⟨n, rfl, hkind, h.value⟩
  · subst hkind
    cases hnum

/-- A tree of truth values folds to a truth value. -/
theorem truth (h : FoldsTo e p) (hk : e.HasKind .boolean) :
    ∃ t, p = .truth t ∧ ∀ env, e.evaluate env = .ok (Truth.toNumber t) := by
  have hkind := hasKind_leaf.mp (hk.of_simplify h.simplified)
  rcases h.literal.number_or_truth with ⟨n, rfl⟩ | ⟨t, rfl⟩
  · cases n <;> cases hkind
  · exact ⟨t, rfl, h.value⟩

/-- A node folds when its settled result is finite and its rule computes it. -/
theorem exists_of_fold {n : Literal} (hdef : e.Defined env)
    (hvalue : ∀ env, e.evaluate env = .ok (n.kind.settle x))
    (hrule : ∀ m, n.fold x = some (Expr.number m) → e.simplify = .ok (Expr.number m)) :
    ∃ l, FoldsTo e l := by
  obtain ⟨m, hm, hval⟩ := Literal.fold_of_finite (hdef.isFinite (hvalue env))
  exact ⟨.number m, trivial, hrule m hm, fun env => by rw [hvalue env, ← hval]; rfl⟩

/-! ## One operation at a time -/

theorem arithmetic {op : Arithmetic} (ha : FoldsTo a p) (hb : FoldsTo b q) (ka : a.HasKind j)
    (kb : b.HasKind j) (hj : j.isNumeric = true) (hdef : (arithmetic op a b).Defined env) :
    ∃ l, FoldsTo (.arithmetic op a b) l := by
  obtain ⟨n, rfl, rfl, hx⟩ := ha.number ka hj
  obtain ⟨m, rfl, -, hy⟩ := hb.number kb hj
  have hk : (Expr.arithmetic op a b).HasKind n.kind := hasKind_arithmetic ka kb hj
  refine exists_of_fold hdef (fun env => (evaluate_arithmetic hk).mpr ⟨_, _, hx env, hy env, rfl⟩) ?_
  intro r hr
  rw [simplify, ha.simplified, hb.simplified]
  show reduceArithmetic op (.number n) (.number m) = _
  rw [reduceArithmetic, show foldArithmetic op (.number n) (.number m) = _ from hr]

theorem percent (ha : FoldsTo a p) (hb : FoldsTo b q) (ka : a.HasKind j) (kb : b.HasKind k)
    (hj : j.isNumeric = true) (hk : k.isNumeric = true)
    (hdef : (binary .percent a b).Defined env) : ∃ l, FoldsTo (.binary .percent a b) l := by
  obtain ⟨n, rfl, rfl, hx⟩ := ha.number ka hj
  obtain ⟨m, rfl, rfl, hy⟩ := hb.number kb hk
  have hkind := hasKind_percent ka kb hj hk
  refine exists_of_fold hdef (fun env => (evaluate_percent hkind).mpr ⟨_, _, hx env, hy env, rfl⟩) ?_
  intro r hr
  rw [simplify, ha.simplified, hb.simplified]
  show Except.ok (reducePercent (.number n) (.number m)) = _
  rw [reducePercent, hr, Option.getD_some]

theorem sqrt (ha : FoldsTo a p) (ka : a.HasKind j) (hj : j.isNumeric = true)
    (hdef : (unary .sqrt a).Defined env) : ∃ l, FoldsTo (.unary .sqrt a) l := by
  obtain ⟨n, rfl, rfl, hx⟩ := ha.number ka hj
  have hkind : (unary .sqrt a).HasKind _ := hasKind_function nofun ka hj
  refine exists_of_fold hdef (fun env => (evaluate_sqrt hkind).mpr ⟨_, hx env, rfl⟩) ?_
  intro r hr
  rw [simplify, ha.simplified]
  show Except.ok (reduceFunction .sqrt positiveRoot (.number n)) = _
  rw [reduceFunction, hr, Option.getD_some]

theorem abs (ha : FoldsTo a p) (ka : a.HasKind j) (hj : j.isNumeric = true)
    (hdef : (unary .abs a).Defined env) : ∃ l, FoldsTo (.unary .abs a) l := by
  obtain ⟨n, rfl, rfl, hx⟩ := ha.number ka hj
  have hkind : (unary .abs a).HasKind _ := hasKind_function nofun ka hj
  refine exists_of_fold hdef (fun env => (evaluate_abs hkind).mpr ⟨_, hx env, rfl⟩) ?_
  intro r hr
  rw [simplify, ha.simplified]
  show Except.ok (reduceFunction .abs Float.abs (.number n)) = _
  rw [reduceFunction, hr, Option.getD_some]

theorem not (ha : FoldsTo a p) (ka : a.HasKind .boolean) : ∃ l, FoldsTo (.not a) l := by
  obtain ⟨t, rfl, hx⟩ := ha.truth ka
  refine ⟨.truth (!t), trivial, by rw [simplify, ha.simplified]; rfl, fun env => ?_⟩
  exact evaluate_not.mpr ⟨t, comesTo_of_truth (hx env), rfl⟩

/-- The literals that the operands fold to are compared exactly. -/
theorem comparison {op : Comparison} (ha : FoldsTo a p) (hb : FoldsTo b q) (ka : a.HasKind j)
    (kb : b.HasKind j) (hj : j.isNumeric = true) (hexact : FoldsExactly (comparison op a b)) :
    ∃ l, FoldsTo (.comparison op a b) l := by
  obtain ⟨n, rfl, -, hx⟩ := ha.number ka hj
  obtain ⟨m, rfl, -, hy⟩ := hb.number kb hj
  refine ⟨.truth (op.holdsOf (n.order m)), trivial, ?_, fun env => ?_⟩
  · rw [simplify, ha.simplified, hb.simplified]
    rfl
  · rw [Literal.holdsOf_order op (hexact op a b n rfl (.inl ha.simplified))
      (hexact op a b m rfl (.inr hb.simplified))]
    exact evaluate_comparison.mpr ⟨_, _, hx env, hy env, rfl⟩

theorem connective {op : Connective} (ha : FoldsTo a p) (hb : FoldsTo b q)
    (ka : a.HasKind .boolean) (kb : b.HasKind .boolean) :
    ∃ l, FoldsTo (.connective op a b) l := by
  obtain ⟨s, rfl, hx⟩ := ha.truth ka
  obtain ⟨t, rfl, hy⟩ := hb.truth kb
  have hs : (Expr.connective op a b).simplify = .ok (absorb op s (.truth t)) := by
    rw [simplify, ha.simplified, hb.simplified]
    rfl
  by_cases hopen : s = op.neutral
  · subst hopen
    refine ⟨.truth t, trivial, by rw [hs, absorb_neutral], fun env => ?_⟩
    exact evaluate_connective.mpr
      (.inr ⟨comesTo_of_truth (hx env), t, comesTo_of_truth (hy env), rfl⟩)
  · obtain rfl := Bool.eq_not_of_ne hopen
    refine ⟨.truth (!op.neutral), trivial, by rw [hs, absorb_decided], fun env => ?_⟩
    exact evaluate_connective.mpr (.inl ⟨comesTo_of_truth (hx env), rfl⟩)

theorem choice (hc : FoldsTo c p) (ha : FoldsTo a q) (hb : FoldsTo b r) (kc : c.HasKind .boolean) :
    ∃ l, FoldsTo (.choice c a b) l := by
  obtain ⟨t, rfl, hx⟩ := hc.truth kc
  have hs : (Expr.choice c a b).simplify = .ok (if t then .leaf q else .leaf r) := by
    rw [simplify, hc.simplified, ha.simplified, hb.simplified]
    show Except.ok (reduceChoice (.truth t) (.leaf q) (.leaf r)) = _
    rw [reduceChoice]
  have hv : ∀ env, (Expr.choice c a b).evaluate env =
      if t then a.evaluate env else b.evaluate env :=
    fun env => evaluate_choice_of (comesTo_of_truth (hx env))
  cases t with
  | true => exact ⟨q, ha.literal, hs, fun env => (hv env).trans (ha.value env)⟩
  | false => exact ⟨r, hb.literal, hs, fun env => (hv env).trans (hb.value env)⟩

end FoldsTo

/-! ## Constant trees -/

theorem constant_number (n : Literal) : Constant env (number n) :=
  ⟨fun l hl => by cases hl; trivial, ⟨n.toDouble, rfl, n.toDouble_isFinite⟩, nofun⟩

/-- A node with operands is part of a constant when it has a finite value. -/
theorem constant_node (hleaf : ∀ l, e ≠ .leaf l) (hrsi : ∀ a b, e ≠ .binary .rsi a b)
    (hx : e.evaluate env = .ok x) (fx : x.isFinite = true) : Constant env e :=
  ⟨fun l hl => absurd hl (hleaf l), ⟨x, hx, fx⟩, fun a b h => absurd h (hrsi a b)⟩

/-- A constant tree folds. -/
theorem exists_foldsTo (hk : e.HasKind k) (hconst : e.Everywhere (Constant env))
    (hexact : e.Everywhere FoldsExactly) : ∃ l, FoldsTo e l := by
  induction e generalizing k with
  | leaf l => exact ⟨l, hconst.literal l rfl, rfl, fun _ => rfl⟩
  | unary op a iha =>
    obtain ⟨j, ka, hr⟩ := hasKind_unary.mp hk
    obtain ⟨p, ha⟩ := iha ka hconst.2 hexact.2
    cases op with
    | not =>
      obtain ⟨rfl, -⟩ := Unary.rule_not.mp hr
      exact ha.not ka
    | sqrt => exact ha.sqrt ka (Unary.rule_sqrt.mp hr).1 hconst.1.defined
    | abs => exact ha.abs ka (Unary.rule_abs.mp hr).1 hconst.1.defined
  | binary op a b iha ihb =>
    obtain ⟨i, j, ka, kb, hr⟩ := hasKind_binary.mp hk
    cases op with
    | arithmetic op =>
      obtain ⟨rfl, hi, -⟩ := Binary.rule_arithmetic.mp hr
      obtain ⟨p, ha⟩ := iha ka hconst.2.1 hexact.2.1
      obtain ⟨q, hb⟩ := ihb kb hconst.2.2 hexact.2.2
      exact ha.arithmetic hb ka kb hi hconst.1.defined
    | comparison op =>
      obtain ⟨rfl, hi, -⟩ := Binary.rule_comparison.mp hr
      obtain ⟨p, ha⟩ := iha ka hconst.2.1 hexact.2.1
      obtain ⟨q, hb⟩ := ihb kb hconst.2.2 hexact.2.2
      exact ha.comparison hb ka kb hi hexact.1
    | connective op =>
      obtain ⟨rfl, rfl, -⟩ := Binary.rule_connective.mp hr
      obtain ⟨p, ha⟩ := iha ka hconst.2.1 hexact.2.1
      obtain ⟨q, hb⟩ := ihb kb hconst.2.2 hexact.2.2
      exact ha.connective hb ka kb
    | percent =>
      obtain ⟨hi, hj, -⟩ := Binary.rule_percent.mp hr
      obtain ⟨p, ha⟩ := iha ka hconst.2.1 hexact.2.1
      obtain ⟨q, hb⟩ := ihb kb hconst.2.2 hexact.2.2
      exact ha.percent hb ka kb hi hj hconst.1.defined
    | lag =>
      have hquote := (Kind.ofQuote?_eq_some (Binary.rule_lag.mp hr).1).1
      exact absurd hconst.2.1.root (not_constant_of_isQuote ka hquote)
    | rsi =>
      obtain ⟨x, hx, -⟩ := hconst.1.defined
      obtain ⟨source, symbol, y, z, hsource, -⟩ := evaluate_rsi.mp hx
      rw [hconst.1.dataless a b rfl] at hsource
      cases hsource
  | ternary op a b c iha ihb ihc =>
    obtain ⟨h, i, j, ka, kb, kc, hr⟩ := hasKind_ternary.mp hk
    cases op with
    | choice =>
      obtain ⟨rfl, rfl, -, -⟩ := Ternary.rule_choice.mp hr
      obtain ⟨p, ha⟩ := iha ka hconst.2.1 hexact.2.1
      obtain ⟨q, hb⟩ := ihb kb hconst.2.2.1 hexact.2.2.1
      obtain ⟨r, hc⟩ := ihc kc hconst.2.2.2 hexact.2.2.2
      exact ha.choice hb hc ka
    | statistic s =>
      have hquote := (Kind.ofQuote?_eq_some (Ternary.rule_statistic.mp hr).1).1
      exact absurd hconst.2.1.root (not_constant_of_isQuote ka hquote)
    | correlation partner =>
      obtain ⟨number, hnumber⟩ := (Ternary.rule_correlation.mp hr).1
      have hquote := (Kind.ofQuote?_eq_some hnumber).1
      exact absurd hconst.2.1.root (not_constant_of_isQuote ka hquote)
  | quaternary op a b c d iha ihb ihc ihd =>
    obtain ⟨g, h, i, j, ka, kb, kc, kd, hr⟩ := hasKind_quaternary.mp hk
    cases op with
    | ema =>
      have hquote := (Kind.ofQuote?_eq_some (Quaternary.rule_ema.mp hr).1).1
      exact absurd hconst.2.1.root (not_constant_of_isQuote ka hquote)

/-- A well-typed constant tree is simplified to a literal, and in every environment the literal and the
tree have the same finite value. -/
theorem folds_to_value (hk : e.HasKind k) (hconst : ∀ site ∈ e.sites, Constant env site.2)
    (hexact : ∀ site ∈ e.sites, FoldsExactly site.2) :
    ∃ l x, e.simplify = .ok (.leaf l) ∧ l.IsLiteral ∧ x.isFinite = true ∧
      ∀ env', e.evaluate env' = .ok x ∧ (leaf l).evaluate env' = .ok x := by
  have heverywhere := everywhere_iff.mpr hconst
  obtain ⟨l, hl⟩ := exists_foldsTo hk heverywhere (everywhere_iff.mpr hexact)
  obtain ⟨x, hx, fx⟩ := heverywhere.root.defined
  have hvalue : ∀ env', (leaf l).evaluate env' = .ok x := fun env' => by
    rw [hl.literal.evaluate_eq env' env, ← hl.value env, hx]
  exact ⟨l, x, hl.simplified, hl.literal, fx,
    fun env' => ⟨(hl.value env').trans (hvalue env'), hvalue env'⟩⟩

/-- The environment of a constant: no variables and no market data. -/
def nowhere : Environment :=
  { bindings := Variables.empty, source := none, symbol := none, day := 0 }

/-- The choice `if(19/6==3) {sqrt(16)} else {percent(200, 10)}`. -/
def fourOrTwenty : Expr :=
  .choice
    (.comparison .equal
      (.arithmetic .divide (.number (.whole 19 (by decide +kernel)))
        (.number (.whole 6 (by decide +kernel))))
      (.number (.whole 3 (by decide +kernel))))
    (.unary .sqrt (.number (.whole 16 (by decide +kernel))))
    (.binary .percent (.number (.whole 200 (by decide +kernel)))
      (.number (.whole 10 (by decide +kernel))))

/-- The choice folds to one whole number. -/
theorem folds_to_value_choice :
    ∃ l x, fourOrTwenty.simplify = .ok (.leaf l) ∧ l.IsLiteral ∧ x.isFinite = true ∧
      ∀ env', fourOrTwenty.evaluate env' = .ok x ∧ (leaf l).evaluate env' = .ok x := by
  have hconst : fourOrTwenty.Everywhere (Constant nowhere) := by
    refine ⟨constant_node (x := 4.0) nofun nofun ?_ ?_, ⟨constant_node (x := 1.0) nofun nofun ?_ ?_,
      ⟨constant_node (x := 3.0) nofun nofun ?_ ?_, constant_number _, constant_number _⟩,
      constant_number _⟩, ⟨constant_node (x := 4.0) nofun nofun ?_ ?_, constant_number _⟩,
      constant_node (x := 20.0) nofun nofun ?_ ?_, constant_number _, constant_number _⟩ <;>
    decide +kernel
  have hexact : fourOrTwenty.Everywhere FoldsExactly := by
    refine ⟨nofun, ⟨?_, ⟨nofun, nofun, nofun⟩, nofun⟩, ⟨nofun, nofun⟩, nofun, nofun, nofun⟩
    -- Both operands of the one comparison fold to three.
    rintro _ _ _ n ⟨⟩ (h | h)
    · have hthree : n = .whole 3 (by decide +kernel) := by
        have h' : (arithmetic .divide (number (.whole 19 (by decide +kernel)))
          (number (.whole 6 (by decide +kernel)))).simplify =
            .ok (number (.whole 3 (by decide +kernel))) := by decide +kernel
        rw [h'] at h
        cases h
        rfl
      rw [hthree]
      show Double.truncate (Double.ofInt 3) = 3
      decide +kernel
    · cases h
      show Double.truncate (Double.ofInt 3) = 3
      decide +kernel
  exact folds_to_value (k := .integer) (by rfl) (everywhere_iff.mp hconst)
    (everywhere_iff.mp hexact)

/-- `9007199254740993>9007199254740992`, two whole numbers with the same nearest double. -/
def beyondDoubles : Expr :=
  .comparison .greater (.number (.whole 9007199254740993 (by decide +kernel)))
    (.number (.whole 9007199254740992 (by decide +kernel)))

/-- Beyond `2 ^ 53` a comparison of literals can fold to the truth value that it does not have. -/
theorem folded_comparison_differs :
    beyondDoubles.HasKind .boolean ∧ (∀ site ∈ beyondDoubles.sites, Constant nowhere site.2) ∧
      beyondDoubles.simplify = .ok (.truth true) ∧
      ∀ env, (truth true).evaluate env = .ok 1.0 ∧ beyondDoubles.evaluate env = .ok 0.0 := by
  have hvalue : ∀ env, beyondDoubles.evaluate env = .ok 0.0 := fun env =>
    evaluate_comparison.mpr ⟨_, _, rfl, rfl, by decide +kernel⟩
  refine ⟨by rfl, ?_, by decide +kernel, fun env => ⟨rfl, hvalue env⟩⟩
  exact everywhere_iff.mp ⟨constant_node nofun nofun (hvalue nowhere) (by decide +kernel),
    constant_number _, constant_number _⟩

end Expr

end TradeRules
