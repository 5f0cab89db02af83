import TradeRules.Proofs.Rule.Meaning

/-!
# Failures after simplification

Evaluation leaves out operands, and some of those may fail.  When a tree has a value, so has its
simplified form, if branches that are merged differ at most in the order of operands that are evaluated
both (`simplified_evaluates`).  Nothing is asked of the subtrees that have no value.

The condition on merged branches is needed.  Connectives evaluate their second operand only if the first
leaves them open, but trees that differ in the order of these operands are the same to `Expr.same`.  So a
choice may be replaced by the branch that it does not take, and this branch may fail where the other is
decided before (`merged_branch_fails`).
-/

namespace TradeRules

open Double

variable {env : Environment}

namespace Expr

variable {a b c d e r : Expr} {j k l : Kind} {x : Float}

/-! ## Trees that have a value -/

/-- Whether a node is regular if it has a value. -/
def Steady (env : Environment) (e : Expr) : Prop :=
  ∀ x, e.evaluate env = .ok x → Regular env e

theorem evaluate_quote {f : Field} {source : Source} {symbol : Symbol}
    (hsource : env.source = some source) (hsymbol : env.symbol = some symbol) :
    (quote f).evaluate env = .ok (source.single symbol f env.day 0) := by
  refine bind_eq_ok.mpr ⟨(source, symbol), ?_, rfl⟩
  exact Environment.quotesFor_eq_ok.mpr ⟨hsource, hsymbol⟩

/-- A field that a statistic names has a value where statistics have. -/
theorem runs_quote {source : Source} {symbol : Symbol} (ha : a.HasKind j) (hj : j.isQuote = true)
    (hsteady : a.Everywhere (Steady env)) (hsource : env.source = some source)
    (hsymbol : env.symbol = some symbol) : a.Runs env := by
  obtain ⟨f, rfl, -⟩ := ha.eq_quote hj
  exact hsteady _ (evaluate_quote hsource hsymbol)

/-- A steady tree that has a value has one at all nodes that evaluation comes to. -/
theorem runs_of_evaluate : ∀ {e : Expr} {k : Kind} {x : Float}, e.HasKind k →
    e.Everywhere (Steady env) → e.evaluate env = .ok x → e.Runs env := by
  intro e
  induction e with
  | leaf l => exact fun _ hsteady hx => hsteady _ hx
  | unary op a iha =>
    intro k x hk hsteady hx
    obtain ⟨j, ka, -⟩ := hasKind_unary.mp hk
    refine ⟨hsteady.1 x hx, ?_⟩
    cases op with
    | not =>
      obtain ⟨t, ⟨y, hy, -⟩, -⟩ := evaluate_not.mp hx
      exact iha ka hsteady.2 hy
    | sqrt =>
      obtain ⟨y, hy, -⟩ := (evaluate_sqrt hk).mp hx
      exact iha ka hsteady.2 hy
    | abs =>
      obtain ⟨y, hy, -⟩ := (evaluate_abs hk).mp hx
      exact iha ka hsteady.2 hy
  | binary op a b iha ihb =>
    intro k x hk hsteady hx
    obtain ⟨j, l, ka, kb, hr⟩ := hasKind_binary.mp hk
    refine ⟨hsteady.1 x hx, ?_⟩
    cases op with
    | arithmetic op =>
      obtain ⟨y, z, hy, hz, -⟩ := (evaluate_arithmetic hk).mp hx
      exact ⟨iha ka hsteady.2.1 hy, fun _ => ihb kb hsteady.2.2 hz⟩
    | comparison op =>
      obtain ⟨y, z, hy, hz, -⟩ := evaluate_comparison.mp hx
      exact ⟨iha ka hsteady.2.1 hy, fun _ => ihb kb hsteady.2.2 hz⟩
    | connective op =>
      rcases evaluate_connective.mp hx with ⟨ht, -⟩ | ⟨ht, u, ⟨z, hz, -⟩, -⟩
      · have ⟨y, hy, _⟩ := ht
        refine ⟨iha ka hsteady.2.1 hy, fun hopen => ?_⟩
        -- The first operand has decided the connective.
        have hne := ht.unique (opens_connective.mp hopen)
        cases op <;> cases hne
      · have ⟨y, hy, _⟩ := ht
        exact ⟨iha ka hsteady.2.1 hy, fun _ => ihb kb hsteady.2.2 hz⟩
    | percent =>
      obtain ⟨y, z, hy, hz, -⟩ := (evaluate_percent hk).mp hx
      exact ⟨iha ka hsteady.2.1 hy, fun _ => ihb kb hsteady.2.2 hz⟩
    | lag =>
      obtain ⟨hj, -⟩ := Binary.rule_lag.mp hr
      obtain ⟨source, symbol, y, f, hs, hsym, hy, -, -, -⟩ := evaluate_lag.mp hx
      exact ⟨runs_quote ka (Kind.ofQuote?_eq_some hj).1 hsteady.2.1 hs hsym,
        fun _ => ihb kb hsteady.2.2 hy⟩
    | rsi =>
      obtain ⟨source, symbol, y, z, -, -, hy, -, hz, -, -, -⟩ := evaluate_rsi.mp hx
      exact ⟨iha ka hsteady.2.1 hy, fun _ => ihb kb hsteady.2.2 hz⟩
  | ternary op a b c iha ihb ihc =>
    intro k x hk hsteady hx
    obtain ⟨j, l, m, ka, kb, kc, hr⟩ := hasKind_ternary.mp hk
    refine ⟨hsteady.1 x hx, ?_⟩
    cases op with
    | choice =>
      obtain ⟨t, ht, hbranch⟩ := evaluate_choice.mp hx
      have ⟨y, hy, _⟩ := ht
      refine ⟨iha ka hsteady.2.1 hy, fun h => ?_, fun h => ?_⟩
      · obtain rfl := ht.unique (h rfl)
        exact ihb kb hsteady.2.2.1 hbranch
      · obtain rfl := ht.unique (h rfl)
        exact ihc kc hsteady.2.2.2 hbranch
    | statistic s =>
      obtain ⟨hj, -, -⟩ := Ternary.rule_statistic.mp hr
      obtain ⟨source, symbol, y, z, f, hs, hsym, hy, -, hz, -, -, -, -⟩ := (evaluate_statistic hk).mp hx
      exact ⟨runs_quote ka (Kind.ofQuote?_eq_some hj).1 hsteady.2.1 hs hsym,
        fun _ => ihb kb hsteady.2.2.1 hy, fun _ => ihc kc hsteady.2.2.2 hz⟩
    | correlation partner =>
      obtain ⟨⟨number, hj⟩, -, -, -⟩ := Ternary.rule_correlation.mp hr
      obtain ⟨source, symbol, other, y, z, f, hs, hsym, -, hy, -, hz, -, -, -, -⟩ :=
        evaluate_correlation.mp hx
      exact ⟨runs_quote ka (Kind.ofQuote?_eq_some hj).1 hsteady.2.1 hs hsym,
        fun _ => ihb kb hsteady.2.2.1 hy, fun _ => ihc kc hsteady.2.2.2 hz⟩
  | quaternary op a b c d iha ihb ihc ihd =>
    intro k x hk hsteady hx
    obtain ⟨j, l, m, n, ka, kb, kc, kd, hr⟩ := hasKind_quaternary.mp hk
    cases op with
    | ema =>
      obtain ⟨hj, -, -, -⟩ := Quaternary.rule_ema.mp hr
      obtain ⟨source, symbol, y, z, w, f, hw, -, -, hs, hsym, hy, -, hz, -, -, -, -⟩ :=
        (evaluate_ema hk).mp hx
      exact ⟨hsteady.1 x hx, runs_quote ka (Kind.ofQuote?_eq_some hj).1 hsteady.2.1 hs hsym,
        ihb kb hsteady.2.2.1 hy, ihc kc hsteady.2.2.2.1 hz, ihd kd hsteady.2.2.2.2 hw⟩

/-! ## Branches that may be merged -/

/-- Whether the operands of an operation may be exchanged, and both are always evaluated. -/
def Exchanges (op : Binary) : Prop :=
  op.commutative = true ∧ ∀ c, op ≠ .connective c

theorem runs_leaf_of_same {s t : Leaf} (h : s.same t = true) (hruns : (leaf s).Runs env) :
    (leaf t).Runs env := by
  rcases Leaf.eq_or_number_of_same h with rfl | ⟨m, n, rfl, rfl, hmn⟩
  · exact hruns
  · refine regular_number ?_
    have hm : m.IsExact := (Reached.root hruns).literal m rfl
    cases m with
    | whole m hm' =>
      cases n with
      | whole n hn =>
        obtain rfl : m = n := by simpa [Literal.same] using hmn
        exact hm
      | real y hy => trivial
    | real y hy =>
      cases n with
      | whole n hn => cases hmn
      | real y hy => trivial

/-- A tree that is rearranged without change to what is evaluated has a value as before. -/
theorem Rearranged.simplifies (h : Rearranged Exchanges a b) (ka : a.HasKind k)
    (hruns : a.Runs env) : Simplifies env k a b := by
  induction h generalizing k with
  | leaf h =>
    have hruns' := runs_leaf_of_same h hruns
    exact ⟨hruns', agrees_of_same h ka hruns hruns'⟩
  | unary op ha iha =>
    obtain ⟨j, kx, hr⟩ := hasKind_unary.mp ka
    exact (iha kx hruns.2).unary kx (ha.hasKind (fun _ => And.left) kx) hr hruns
  | binary op ha hb iha ihb =>
    obtain ⟨j, l, kx, ky, hr⟩ := hasKind_binary.mp ka
    exact (iha kx hruns.2.1).binary (fun h => ihb ky (hruns.2.2 h)) kx ky
      (ha.hasKind (fun _ => And.left) kx) (hb.hasKind (fun _ => And.left) ky) hr hruns
  | @exchange op x x' y y' hop ha hb iha ihb =>
    obtain ⟨j, l, kx, ky, hr⟩ := hasKind_binary.mp ka
    have hopens : ∀ e : Expr, e.Opens env op := fun e c hc => absurd hc (hop.2 c)
    have ry := hruns.2.2 (hopens x)
    -- First the operands are exchanged, then each is rearranged.
    have hcomm := agrees_comm hop.1 hop.2 kx ky hr hruns.2.1.root.defined ry.root.defined
      hruns.root.defined
    have hswapped : (Expr.binary op y x).Runs env := by
      refine ⟨Regular.of_defined hcomm.right (fun _ h => by cases h) ?_, ry, fun _ => hruns.2.1⟩
      rintro _ _ ⟨⟩
      cases hop.1
    exact Simplifies.of_agrees hcomm ((ihb ky ry).binary (fun _ => iha kx hruns.2.1) ky kx
      (hb.hasKind (fun _ => And.left) ky) (ha.hasKind (fun _ => And.left) kx)
      (Binary.rule_comm hop.1 hr) hswapped)
  | ternary op ha hb hc iha ihb ihc =>
    obtain ⟨j, l, m, kx, ky, kz, hr⟩ := hasKind_ternary.mp ka
    exact (iha kx hruns.2.1).ternary (fun h => ihb ky (hruns.2.2.1 h))
      (fun h => ihc kz (hruns.2.2.2 h)) kx ky kz (ha.hasKind (fun _ => And.left) kx)
      (hb.hasKind (fun _ => And.left) ky) (hc.hasKind (fun _ => And.left) kz) hr hruns
  | quaternary op ha hb hc hd iha ihb ihc ihd =>
    obtain ⟨j, l, m, n, kx, ky, kz, kw, hr⟩ := hasKind_quaternary.mp ka
    exact (iha kx hruns.2.1).quaternary (ihb ky hruns.2.2.1) (ihc kz hruns.2.2.2.1)
      (ihd kw hruns.2.2.2.2) kx ky kz kw (ha.hasKind (fun _ => And.left) kx)
      (hb.hasKind (fun _ => And.left) ky) (hc.hasKind (fun _ => And.left) kz)
      (hd.hasKind (fun _ => And.left) kw) hr hruns

/-- Whether the branches of a choice that a rule merges differ at most in the order of operands that are
evaluated both. -/
def MergesInOrder (e : Expr) : Prop :=
  ∀ c a b a' b', e = choice c a b → a.simplify = .ok a' → b.simplify = .ok b' →
    a'.same b' = true → Rearranged Exchanges a' b'

theorem MergesInOrder.mergesSafely (h : e.MergesInOrder) (hk : e.HasKind k) :
    MergesSafely env e := by
  rintro c a b a' b' rfl ha hb hsame
  obtain ⟨j, l, m, -, ka, kb, -⟩ := hasKind_ternary.mp hk
  have horder := h c a b a' b' rfl ha hb hsame
  exact ⟨fun hruns => (horder.simplifies (ka.of_simplify ha) hruns).runs,
    fun hruns => (horder.symm.simplifies (kb.of_simplify hb) hruns).runs⟩

theorem mergesSafely_of_inOrder (hk : e.HasKind k) (h : e.Everywhere MergesInOrder) :
    e.Everywhere (MergesSafely env) := by
  induction e generalizing k with
  | leaf l => exact h.mergesSafely hk
  | unary op a iha =>
    obtain ⟨j, ka, -⟩ := hasKind_unary.mp hk
    exact ⟨h.1.mergesSafely hk, iha ka h.2⟩
  | binary op a b iha ihb =>
    obtain ⟨j, l, ka, kb, -⟩ := hasKind_binary.mp hk
    exact ⟨h.1.mergesSafely hk, iha ka h.2.1, ihb kb h.2.2⟩
  | ternary op a b c iha ihb ihc =>
    obtain ⟨j, l, m, ka, kb, kc, -⟩ := hasKind_ternary.mp hk
    exact ⟨h.1.mergesSafely hk, iha ka h.2.1, ihb kb h.2.2.1, ihc kc h.2.2.2⟩
  | quaternary op a b c d iha ihb ihc ihd =>
    obtain ⟨j, l, m, n, ka, kb, kc, kd, -⟩ := hasKind_quaternary.mp hk
    exact ⟨h.1.mergesSafely hk, iha ka h.2.1, ihb kb h.2.2.1, ihc kc h.2.2.2.1, ihd kd h.2.2.2.2⟩

/-- Simplification introduces no failure: when a well-typed tree has a value, its simplified form has a
value of the same meaning.  Subtrees without a value may be left out of the evaluation of both. -/
theorem simplified_evaluates (hk : e.HasKind k) (hvol : env.WholeVolumes)
    (hsteady : ∀ site ∈ e.sites, Steady env site.2) (horder : ∀ site ∈ e.sites, site.2.MergesInOrder)
    (hx : e.evaluate env = .ok x) :
    ∃ r y, e.simplify = .ok r ∧ r.evaluate env = .ok y ∧
      (k.isNumeric = true → (x == y) = true) ∧
      (k = .boolean → Truth.holds x = Truth.holds y) := by
  have hruns : e.Runs env := runs_of_evaluate hk (everywhere_iff.mpr hsteady) hx
  obtain ⟨r, hr, -⟩ := hk.simplify
  have hsimplifies := simplifies_simplify hvol hk
    (mergesSafely_of_inOrder hk (everywhere_iff.mpr horder)) hruns hr
  obtain ⟨y, hy, -⟩ := hsimplifies.agrees.right
  exact ⟨r, y, hr, hy, hsimplifies.agrees.meaning hx hy⟩

/-- A source of one day with one quote. -/
def oneDay : Source :=
  { calendar := #[⟨2024, 3, 6, by decide⟩]
    series := [(⟨"AAA"⟩, #[{ closing := some 10.5 }])] }

theorem quote?_oneDay {symbol : Symbol} {field : Field} {day : ℤ}
    (h : oneDay.quote? symbol field day = some x) : field = .closing ∧ x = 10.5 := by
  unfold Source.quote? at h
  split_ifs at h
  obtain ⟨bars, hbars, h⟩ := Option.bind_eq_some_iff.mp h
  obtain ⟨bar, hbar, h⟩ := Option.bind_eq_some_iff.mp h
  obtain ⟨front, back, hseries, -⟩ := List.lookup_eq_some_iff.mp hbars
  have hentry : (symbol, bars) ∈ oneDay.series := by rw [hseries]; simp
  obtain ⟨-, rfl⟩ := Prod.mk.inj (List.mem_singleton.mp hentry)
  obtain rfl := List.mem_singleton.mp (Array.mem_toList_iff.mpr (Array.mem_of_getElem? hbar))
  cases field <;> cases h
  exact ⟨rfl, rfl⟩

/-- The day of this source, on which the stock has been held for a number of days. -/
def onDay (held : Float) : Environment :=
  { bindings := Variables.ofRule held 0.0, source := some oneDay, symbol := some ⟨"AAA"⟩, day := 0 }

/-- The literal zero. -/
def nought : Expr :=
  number (.whole 0 ofInt_zero_isFinite)

/-- Whether the average close of the days of holding exceeds one.  It fails on the first of them. -/
def averageHeld : Expr :=
  comparison .greater (.ternary (.statistic .average) (quote .closing) sampleHeld nought)
    (number (.real 1.0 (by decide +kernel)))

/-- Whether the stock has been held. -/
def isHeld : Expr :=
  comparison .greater sampleHeld nought

/-- Whether the close exceeds twenty. -/
def isDear : Expr :=
  comparison .greater (.binary .lag (quote .closing) nought) (number (.real 20.0 (by decide +kernel)))

theorem Steady.of_error {err : EvalError} (h : e.evaluate env = .error err) : Steady env e := by
  intro x hx
  rw [h] at hx
  cases hx

theorem Steady.of_defined (h : e.Defined env) (hleaf : ∀ l, e ≠ .leaf l)
    (hdiv : ∀ a b, e ≠ .arithmetic .divide a b) : Steady env e :=
  fun _ _ => Regular.of_defined h hleaf hdiv

theorem steady_real (y : Float) (hy : y.isFinite = true) : Steady env (number (.real y hy)) :=
  fun _ _ => regular_number trivial

theorem steady_nought : Steady env nought :=
  fun _ _ => regular_number (by decide +kernel : truncate (ofInt 0) = 0)

theorem MergesInOrder.of_ne (h : ∀ c a b, e ≠ choice c a b) : e.MergesInOrder :=
  fun c a b _ _ heq => absurd heq (h c a b)

theorem steady_held : Steady (onDay 0.0) sampleHeld := by
  refine fun _ _ => ⟨⟨0.0, rfl, by decide +kernel⟩, fun _ h => (by cases h), ?_,
    fun _ _ _ h => (by cases h)⟩
  intro name x hv hx
  cases hx
  exact ⟨by decide +kernel, by decide +kernel⟩

theorem steady_closing : Steady (onDay 0.0) (quote .closing) :=
  fun _ _ => ⟨⟨10.5, by decide +kernel, by decide +kernel⟩, fun _ h => (by cases h),
    fun _ _ h => (by cases h), fun _ _ _ h => (by cases h)⟩

/-- A choice has a value on the first day of holding, though one of its branches fails, and so it has
after its condition is simplified. -/
theorem simplified_evaluates_held :
    ∃ r y, (choice (Expr.not isHeld) isDear averageHeld).simplify = .ok r ∧
      r.evaluate (onDay 0.0) = .ok y ∧
      (Kind.boolean.isNumeric = true → ((0.0 : Float) == y) = true) ∧
      (Kind.boolean = .boolean → Truth.holds 0.0 = Truth.holds y) := by
  have hheld : isHeld.Everywhere (Steady (onDay 0.0)) :=
    ⟨.of_defined ⟨0.0, by decide +kernel, by decide +kernel⟩ nofun nofun, steady_held, steady_nought⟩
  have hdear : isDear.Everywhere (Steady (onDay 0.0)) :=
    ⟨.of_defined ⟨0.0, by decide +kernel, by decide +kernel⟩ nofun nofun,
      ⟨.of_defined ⟨10.5, by decide +kernel, by decide +kernel⟩ nofun nofun, steady_closing,
        steady_nought⟩, steady_real _ _⟩
  have hfails : averageHeld.evaluate (onDay 0.0) =
      .error (.periodNotPositive "avg(close, held, 0)" 0) := by decide +kernel
  have hfails' : (ternary (.statistic .average) (quote .closing) sampleHeld nought).evaluate
      (onDay 0.0) = .error (.periodNotPositive "avg(close, held, 0)" 0) := by decide +kernel
  have haverage : averageHeld.Everywhere (Steady (onDay 0.0)) :=
    ⟨.of_error hfails, ⟨.of_error hfails', steady_closing, steady_held, steady_nought⟩,
      steady_real _ _⟩
  have hsteady : (choice (Expr.not isHeld) isDear averageHeld).Everywhere (Steady (onDay 0.0)) :=
    ⟨.of_defined ⟨0.0, by decide +kernel, by decide +kernel⟩ nofun nofun,
      ⟨.of_defined ⟨1.0, by decide +kernel, by decide +kernel⟩ nofun nofun, hheld⟩, hdear, haverage⟩
  have horder : (choice (Expr.not isHeld) isDear averageHeld).Everywhere MergesInOrder := by
    refine ⟨?_, ⟨.of_ne nofun, .of_ne nofun, .of_ne nofun, .of_ne nofun⟩,
      ⟨.of_ne nofun, ⟨.of_ne nofun, .of_ne nofun, .of_ne nofun⟩, .of_ne nofun⟩,
      .of_ne nofun, ⟨.of_ne nofun, .of_ne nofun, .of_ne nofun, .of_ne nofun⟩, .of_ne nofun⟩
    rintro _ _ _ a' b' ⟨⟩ ha hb hsame
    -- The branches are in simplified form already, and they are not the same.
    have hdear' : isDear.simplify = .ok isDear := by decide +kernel
    have haverage' : averageHeld.simplify = .ok averageHeld := by decide +kernel
    obtain rfl := Except.ok.inj (hdear'.symm.trans ha)
    obtain rfl := Except.ok.inj (haverage'.symm.trans hb)
    exact absurd hsame (by decide +kernel)
  have hvolumes : (onDay 0.0).WholeVolumes := by
    rintro source symbol day x ⟨⟩ - hx
    cases (quote?_oneDay hx).1
  exact simplified_evaluates (by rfl) hvolumes (everywhere_iff.mp hsteady) (everywhere_iff.mp horder)
    (by decide +kernel)

/-! ## Branches that may not be merged -/

/-- A rule of truth values, evaluated where all variables and quotes are finite, has a value and is
simplified to one of its branches, which has none. -/
theorem merged_branch_fails :
    (choice isDear (connective .and averageHeld isHeld)
        (connective .and isHeld averageHeld)).HasKind .boolean ∧
      (∀ v ∈ (onDay 0.0).bindings.toList, v.value.isFinite = true) ∧
      (∀ symbol field day x, oneDay.quote? symbol field day = some x → x.isFinite = true) ∧
      (choice isDear (connective .and averageHeld isHeld)
        (connective .and isHeld averageHeld)).evaluate (onDay 0.0) = .ok 0.0 ∧
      (choice isDear (connective .and averageHeld isHeld)
        (connective .and isHeld averageHeld)).simplify =
          .ok (connective .and averageHeld isHeld) ∧
      (connective .and averageHeld isHeld).evaluate (onDay 0.0) =
        .error (.periodNotPositive "avg(close, held, 0)" 0) := by
  refine ⟨by rfl, fun v hv => ?_, fun symbol field day x hx => ?_, by decide +kernel,
    by decide +kernel, by decide +kernel⟩
  · simp only [onDay, Variables.ofRule, List.mem_cons, List.not_mem_nil, or_false] at hv
    rcases hv with rfl | rfl <;> decide +kernel
  · obtain ⟨-, rfl⟩ := quote?_oneDay hx
    decide +kernel

end Expr

end TradeRules
