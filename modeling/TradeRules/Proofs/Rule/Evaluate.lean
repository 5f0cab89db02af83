import TradeRules.Proofs.Rule.Operation
import TradeRules.Proofs.Rule.Typing
import TradeRules.Rule.Evaluate

/-!
# Evaluation of well-typed trees

Evaluation succeeds at a node under conditions on the values of its operands, and the inversion lemmas
say which (`evaluate_arithmetic`, `evaluate_lag`, and so on).  They hold in both directions, so a
tree is evaluated by giving the values of its operands.  A connective or a choice may leave out an
operand.  `Opens` and `Selects` say which operands evaluation goes on to, in terms of the truth that
the first one comes to (`ComesTo`).

`Agrees env k a b` relates two trees of kind `k` that evaluate to finite values of the same meaning: the
same number for numbers, the same truth for truth values.  Trees of quote kind are not told apart by
their value, since the statistics read the field they name, so these have to be equal.
-/

namespace TradeRules

open Double

variable {env : Environment}

/-! ## Conditions of evaluation -/

theorem ok_eq_ok {α ε : Type} {x y : α} : (Except.ok x : Except ε α) = .ok y ↔ y = x := by
  rw [Except.ok.injEq]
  exact eq_comm

theorem pure_eq_ok {α ε : Type} {x y : α} : (pure x : Except ε α) = .ok y ↔ y = x :=
  ok_eq_ok

theorem Environment.quotesFor_eq_ok {e : Expr} {source : Source} {symbol : Symbol} :
    env.quotesFor e = .ok (source, symbol) ↔
      env.source = some source ∧ env.symbol = some symbol := by
  unfold quotesFor
  split
  · next source' symbol' hsource hsymbol => simp [hsource, hsymbol]
  · next hnone =>
    refine iff_of_false (by simp) ?_
    rintro ⟨hsource, hsymbol⟩
    exact hnone source symbol hsource hsymbol

theorem wholeArgument_eq_ok {e : Expr} {x : Float} {n : ℤ} :
    wholeArgument e x = .ok n ↔ x.isFinite = true ∧ truncate x = n := by
  unfold wholeArgument
  split_ifs with h <;> simp [h]

theorem positivePeriod_eq_ok {e : Expr} {period : ℤ} {u : Unit} :
    positivePeriod e period = .ok u ↔ 0 < period := by
  unfold positivePeriod
  split_ifs with h
  · exact iff_of_false (by simp) (by omega)
  · exact iff_of_true rfl (by omega)

/-- A guard before the rest of a computation has to be false. -/
theorem guard_eq_ok {α β ε : Type} {p : Prop} [Decidable p] {err : ε} {f : β → Except ε α}
    {x : Except ε α} {y : α} :
    (if p then (throw err : Except ε β) >>= f else x) = .ok y ↔ ¬p ∧ x = .ok y := by
  split_ifs with h
  · exact iff_of_false (by intro hy; cases hy) (fun hp => hp.1 h)
  · exact ⟨fun hx => ⟨h, hx⟩, fun hx => hx.2⟩

/-- The truth value that leaves a connective open. -/
def Connective.neutral : Connective → Bool
  | .and => true
  | .or => false

namespace Expr

variable {a b c d e : Expr} {j k l : Kind} {r x y : Float} {s t : Bool}

theorem HasKind.settle_eq (h : e.HasKind k) (x : Float) : e.settle x = .ok (k.settle x) := by
  simp [Expr.settle, h.declaredKind, Except.mapError, bind, Except.bind, pure, Except.pure]

/-! ## Evaluation inverted -/

/-- Whether a tree evaluates to a number of a truth. -/
def ComesTo (env : Environment) (e : Expr) (t : Bool) : Prop :=
  ∃ x, e.evaluate env = .ok x ∧ Truth.holds x = t

theorem evaluate_not :
    (Expr.not a).evaluate env = .ok r ↔
      ∃ t, a.ComesTo env t ∧ r = Truth.toNumber (!t) := by
  refine bind_eq_ok.trans ?_
  simp only [pure_eq_ok, ComesTo]
  grind

theorem evaluate_sqrt (h : (unary .sqrt a).HasKind k) :
    (unary .sqrt a).evaluate env = .ok r ↔
      ∃ x, a.evaluate env = .ok x ∧ r = k.settle (positiveRoot x) := by
  refine bind_eq_ok.trans ?_
  simp only [h.settle_eq, ok_eq_ok]

theorem evaluate_abs (h : (unary .abs a).HasKind k) :
    (unary .abs a).evaluate env = .ok r ↔
      ∃ x, a.evaluate env = .ok x ∧ r = k.settle x.abs := by
  refine bind_eq_ok.trans ?_
  simp only [h.settle_eq, ok_eq_ok]

theorem evaluate_arithmetic {op : Arithmetic} (h : (arithmetic op a b).HasKind k) :
    (arithmetic op a b).evaluate env = .ok r ↔
      ∃ x y, a.evaluate env = .ok x ∧ b.evaluate env = .ok y ∧ r = k.settle (op.apply x y) := by
  refine bind_eq_ok.trans ?_
  simp only [bind_eq_ok, h.settle_eq, ok_eq_ok]
  grind

theorem evaluate_comparison {op : Comparison} :
    (comparison op a b).evaluate env = .ok r ↔
      ∃ x y, a.evaluate env = .ok x ∧ b.evaluate env = .ok y ∧
        r = Truth.toNumber (op.holds x y) := by
  refine bind_eq_ok.trans ?_
  simp only [bind_eq_ok, pure_eq_ok]
  grind

/-- A connective is decided by its first operand, or comes to the truth of the second. -/
theorem evaluate_connective {op : Connective} :
    (connective op a b).evaluate env = .ok r ↔
      a.ComesTo env (!op.neutral) ∧ r = Truth.toNumber (!op.neutral) ∨
        a.ComesTo env op.neutral ∧ ∃ t, b.ComesTo env t ∧ r = Truth.toNumber t := by
  cases op with
  | and =>
    refine bind_eq_ok.trans ?_
    simp only [ComesTo, Connective.neutral]
    grind [bind_eq_ok, pure_eq_ok]
  | or =>
    refine bind_eq_ok.trans ?_
    simp only [ComesTo, Connective.neutral]
    grind [bind_eq_ok, pure_eq_ok]

theorem evaluate_percent (h : (binary .percent a b).HasKind k) :
    (binary .percent a b).evaluate env = .ok r ↔
      ∃ x y, a.evaluate env = .ok x ∧ b.evaluate env = .ok y ∧ r = k.settle (percentOf x y) := by
  refine bind_eq_ok.trans ?_
  simp only [bind_eq_ok, h.settle_eq, ok_eq_ok]
  grind

theorem evaluate_lag :
    (binary .lag a b).evaluate env = .ok r ↔
      ∃ source symbol y f, env.source = some source ∧ env.symbol = some symbol ∧
        b.evaluate env = .ok y ∧ y.isFinite = true ∧ a.field = .ok f ∧
        r = source.single symbol f env.day (truncate y) := by
  refine bind_eq_ok.trans ?_
  simp only [bind_eq_ok, Prod.exists, Environment.quotesFor_eq_ok, wholeArgument_eq_ok,
    pure_eq_ok]
  grind

theorem evaluate_rsi :
    (binary .rsi a b).evaluate env = .ok r ↔
      ∃ source symbol x y, env.source = some source ∧ env.symbol = some symbol ∧
        a.evaluate env = .ok x ∧ x.isFinite = true ∧ b.evaluate env = .ok y ∧ y.isFinite = true ∧
        0 < truncate x ∧
        r = Samples.relativeStrength
          (source.window symbol .closing env.day (truncate x + 1) (truncate y)) := by
  refine bind_eq_ok.trans ?_
  simp only [bind_eq_ok, Prod.exists, Environment.quotesFor_eq_ok, wholeArgument_eq_ok,
    positivePeriod_eq_ok, pure_eq_ok]
  grind

/-- A choice evaluates the branch that its condition selects. -/
theorem evaluate_choice :
    (choice c a b).evaluate env = .ok r ↔
      ∃ t, c.ComesTo env t ∧ (if t then a.evaluate env else b.evaluate env) = .ok r := by
  refine bind_eq_ok.trans ?_
  simp only [ComesTo]
  grind

theorem evaluate_statistic {s : Statistic} (h : (ternary (.statistic s) a b c).HasKind k) :
    (ternary (.statistic s) a b c).evaluate env = .ok r ↔
      ∃ source symbol y z f, env.source = some source ∧ env.symbol = some symbol ∧
        b.evaluate env = .ok y ∧ y.isFinite = true ∧ c.evaluate env = .ok z ∧ z.isFinite = true ∧
        0 < truncate y ∧ a.field = .ok f ∧
        r = k.settle (s.of (source.window symbol f env.day (truncate y) (truncate z))) := by
  refine bind_eq_ok.trans ?_
  simp only [bind_eq_ok, Prod.exists, Environment.quotesFor_eq_ok, wholeArgument_eq_ok,
    positivePeriod_eq_ok, h.settle_eq, ok_eq_ok]
  grind

theorem evaluate_correlation {partner : String} :
    (ternary (.correlation partner) a b c).evaluate env = .ok r ↔
      ∃ source symbol other y z f, env.source = some source ∧ env.symbol = some symbol ∧
        Symbol.parse partner = .ok other ∧ b.evaluate env = .ok y ∧ y.isFinite = true ∧
        c.evaluate env = .ok z ∧ z.isFinite = true ∧ 1 < truncate y ∧ a.field = .ok f ∧
        r = Samples.correlation
          ((source.pairedWindow symbol other f env.day (truncate y) (truncate z)).map Prod.fst)
          ((source.pairedWindow symbol other f env.day (truncate y) (truncate z)).map Prod.snd) := by
  refine bind_eq_ok.trans ?_
  simp only [bind_eq_ok, Prod.exists, Environment.quotesFor_eq_ok, wholeArgument_eq_ok,
    mapError_eq_ok, guard_eq_ok, pure_eq_ok]
  grind

theorem evaluate_ema (h : (quaternary .ema a b c d).HasKind k) :
    (quaternary .ema a b c d).evaluate env = .ok r ↔
      ∃ source symbol y z w f, d.evaluate env = .ok w ∧
        Smoothing.least ≤ w ∧ w ≤ Smoothing.greatest ∧
        env.source = some source ∧ env.symbol = some symbol ∧
        b.evaluate env = .ok y ∧ y.isFinite = true ∧ c.evaluate env = .ok z ∧ z.isFinite = true ∧
        0 < truncate y ∧ a.field = .ok f ∧
        r = k.settle (Samples.exponentialAverage w
          (source.window symbol f env.day (truncate y) (truncate z))) := by
  refine bind_eq_ok.trans ?_
  simp only [bind_eq_ok, Prod.exists, Environment.quotesFor_eq_ok, wholeArgument_eq_ok,
    positivePeriod_eq_ok, guard_eq_ok, h.settle_eq, ok_eq_ok]
  grind

/-! ## Trees with finite values -/

/-- Whether a tree evaluates to a finite value. -/
def Defined (env : Environment) (e : Expr) : Prop :=
  ∃ x, e.evaluate env = .ok x ∧ x.isFinite = true

theorem ComesTo.unique (h : e.ComesTo env s) (h' : e.ComesTo env t) : s = t := by
  obtain ⟨x, hx, rfl⟩ := h
  obtain ⟨y, hy, rfl⟩ := h'
  rw [hx] at hy
  cases hy
  rfl

theorem Defined.comesTo (h : e.Defined env) : ∃ t, e.ComesTo env t := by
  obtain ⟨x, hx, -⟩ := h
  exact ⟨_, x, hx, rfl⟩

theorem comesTo_of_truth (h : e.evaluate env = .ok (Truth.toNumber t)) : e.ComesTo env t :=
  ⟨_, h, Truth.holds_toNumber t⟩

theorem defined_of_truth (h : e.evaluate env = .ok (Truth.toNumber t)) : e.Defined env :=
  ⟨_, h, Truth.toNumber_isFinite t⟩

/-- Whether the first operand of an operation leaves the second to be evaluated. -/
def Opens (env : Environment) (op : Binary) (a : Expr) : Prop :=
  ∀ c, op = .connective c → a.ComesTo env c.neutral

theorem opens_connective {op : Connective} :
    a.Opens env (.connective op) ↔ a.ComesTo env op.neutral := by
  refine ⟨fun h => h op rfl, ?_⟩
  rintro h c ⟨⟩
  exact h

/-- Whether the first operand of an operation leaves the operand for a truth value to be evaluated.  Of
a choice that is one of the branches. -/
def Selects (env : Environment) (op : Ternary) (a : Expr) (t : Bool) : Prop :=
  op = .choice → a.ComesTo env t

/-- A connective comes to a truth of both operands, and to one of the first that decides it. -/
theorem evaluate_connective_of {op : Connective} (ha : a.ComesTo env t)
    (hb : t = op.neutral → b.ComesTo env t) :
    (connective op a b).evaluate env = .ok (Truth.toNumber t) := by
  by_cases hopen : t = op.neutral
  · exact evaluate_connective.mpr (.inr ⟨hopen ▸ ha, t, hb hopen, rfl⟩)
  · obtain rfl := Bool.eq_not_of_ne hopen
    exact evaluate_connective.mpr (.inl ⟨ha, rfl⟩)

/-- A choice evaluates as the branch that its condition selects. -/
theorem evaluate_choice_of (h : c.ComesTo env t) :
    (choice c a b).evaluate env = if t then a.evaluate env else b.evaluate env := by
  obtain ⟨x, hx, rfl⟩ := h
  exact bind_of_ok hx

/-- Whether two values of a kind mean the same. -/
def Matches (k : Kind) (x y : Float) : Prop :=
  if k = .boolean then Truth.holds x = Truth.holds y else exact x = exact y

/-- Whether two trees of a kind evaluate to finite values of the same meaning. -/
structure Agrees (env : Environment) (k : Kind) (a b : Expr) : Prop where
  left : a.Defined env
  right : b.Defined env
  /-- The values mean the same. -/
  values : ∀ x y, a.evaluate env = .ok x → b.evaluate env = .ok y → Matches k x y
  /-- Fields are told apart. -/
  fields : k.isQuote = true → a = b

theorem Matches.refl (k : Kind) (x : Float) : Matches k x x := by
  unfold Matches
  split_ifs <;> rfl

theorem Matches.of_exact (k : Kind) (h : Alike x y) : Matches k x y := by
  unfold Matches
  split_ifs
  · exact Truth.holds_alike h
  · exact h.exact_eq

namespace Agrees

theorem refl (h : a.Defined env) : Agrees env k a a := by
  refine ⟨h, h, ?_, fun _ => rfl⟩
  intro x y hx hy
  rw [hx] at hy
  cases hy
  exact Matches.refl k x

theorem symm (h : Agrees env k a b) : Agrees env k b a := by
  refine ⟨h.right, h.left, ?_, fun hk => (h.fields hk).symm⟩
  intro x y hx hy
  have hm := h.values y x hy hx
  unfold Matches at hm ⊢
  split_ifs at hm ⊢
  · exact hm.symm
  · exact hm.symm

theorem trans (h : Agrees env k a b) (h' : Agrees env k b c) : Agrees env k a c := by
  refine ⟨h.left, h'.right, ?_, fun hk => (h.fields hk).trans (h'.fields hk)⟩
  intro x y hx hy
  obtain ⟨z, hz, -⟩ := h.right
  have h1 := h.values x z hx hz
  have h2 := h'.values z y hz hy
  unfold Matches at h1 h2 ⊢
  split_ifs at h1 h2 ⊢
  · exact h1.trans h2
  · exact h1.trans h2

/-- The values of trees of numbers that agree are alike. -/
theorem alike (h : Agrees env k a b) (hk : k.isNumeric = true) :
    ∃ x y, a.evaluate env = .ok x ∧ b.evaluate env = .ok y ∧ Alike x y := by
  obtain ⟨x, hx, fx⟩ := h.left
  obtain ⟨y, hy, fy⟩ := h.right
  have hm := h.values x y hx hy
  rw [Matches, if_neg (by rintro rfl; cases hk)] at hm
  exact ⟨x, y, hx, hy, fx, fy, hm⟩

/-- Trees of truth values that agree come to one truth. -/
theorem truth (h : Agrees env .boolean a b) : ∃ t, a.ComesTo env t ∧ b.ComesTo env t := by
  obtain ⟨x, hx, -⟩ := h.left
  obtain ⟨y, hy, -⟩ := h.right
  exact ⟨Truth.holds x, ⟨x, hx, rfl⟩, y, hy, (h.values x y hx hy).symm⟩

theorem comesTo (h : Agrees env .boolean a b) (ha : a.ComesTo env t) : b.ComesTo env t := by
  obtain ⟨u, hau, hbu⟩ := h.truth
  exact ha.unique hau ▸ hbu

/-- The values of trees that agree are equal as numbers, or have one truth. -/
theorem meaning (h : Agrees env k a b) (hx : a.evaluate env = .ok x) (hy : b.evaluate env = .ok y) :
    (k.isNumeric = true → (x == y) = true) ∧ (k = .boolean → Truth.holds x = Truth.holds y) := by
  constructor
  · intro hnum
    obtain ⟨x', y', hx', hy', hxy⟩ := h.alike hnum
    obtain rfl := Except.ok.inj (hx.symm.trans hx')
    obtain rfl := Except.ok.inj (hy.symm.trans hy')
    exact (beq_iff_exact hxy.left hxy.right).mpr hxy.exact_eq
  · rintro rfl
    have hmatch := h.values x y hx hy
    rwa [Matches, if_pos rfl] at hmatch

/-- Trees of numbers with alike values agree. -/
theorem of_alike (hx : a.evaluate env = .ok x) (hy : b.evaluate env = .ok y) (h : Alike x y)
    (hk : k.isQuote = false) : Agrees env k a b := by
  refine ⟨⟨x, hx, h.left⟩, ⟨y, hy, h.right⟩, ?_, by simp [hk]⟩
  intro x' y' hx' hy'
  rw [hx] at hx'
  rw [hy] at hy'
  cases hx'
  cases hy'
  exact Matches.of_exact k h

/-- Trees of one value agree. -/
theorem of_eq (hx : a.evaluate env = .ok x) (hy : b.evaluate env = .ok x)
    (hf : x.isFinite = true) (hk : k.isQuote = false) : Agrees env k a b :=
  of_alike hx hy (Alike.refl hf) hk

/-- Trees that come to one truth agree. -/
theorem of_comesTo (da : a.Defined env) (db : b.Defined env) (ha : a.ComesTo env t)
    (hb : b.ComesTo env t) : Agrees env .boolean a b := by
  refine ⟨da, db, fun x y hx hy => ?_, by intro hk; cases hk⟩
  rw [Matches, if_pos rfl]
  exact (ha.unique ⟨x, hx, rfl⟩).symm.trans (hb.unique ⟨y, hy, rfl⟩)

/-- Trees that evaluate as two trees that agree. -/
theorem of_evaluate (h : Agrees env k a b) (hk : k.isQuote = false)
    (ha : c.evaluate env = a.evaluate env) (hb : d.evaluate env = b.evaluate env) :
    Agrees env k c d := by
  obtain ⟨x, hx, fx⟩ := h.left
  obtain ⟨y, hy, fy⟩ := h.right
  refine ⟨⟨x, by rw [ha, hx], fx⟩, ⟨y, by rw [hb, hy], fy⟩, ?_, by simp [hk]⟩
  intro x' y' hx' hy'
  exact h.values x' y' (ha ▸ hx') (hb ▸ hy')

/-- Operands that agree leave the same operands to be evaluated. -/
theorem opens {op : Binary} (h : Agrees env j a b) (hr : op.rule j k = .ok l)
    (hopen : a.Opens env op) : b.Opens env op := by
  rintro c rfl
  obtain ⟨rfl, -, -⟩ := Binary.rule_connective.mp hr
  exact h.comesTo (hopen c rfl)

theorem selects {op : Ternary} {m : Kind} (h : Agrees env j a b) (hr : op.rule j k l = .ok m)
    (hselect : a.Selects env op t) : b.Selects env op t := by
  rintro rfl
  obtain ⟨rfl, -, -, -⟩ := Ternary.rule_choice.mp hr
  exact h.comesTo (hselect rfl)

end Agrees

/-! ## Nodes with operands that agree -/

variable {a' b' c' d' : Expr}

/-- A defined operation agrees with the same operation on an operand that agrees. -/
theorem Agrees.unary {op : Unary} (ha : Agrees env j a a') (ka : a.HasKind j) (ka' : a'.HasKind j)
    (hr : op.rule j = .ok k) (hdef : (unary op a).Defined env) :
    Agrees env k (.unary op a) (.unary op a') := by
  have hk := hasKind_unary.mpr ⟨j, ka, hr⟩
  have hk' := hasKind_unary.mpr ⟨j, ka', hr⟩
  obtain ⟨r, her, fr⟩ := hdef
  cases op with
  | not =>
    obtain ⟨rfl, rfl⟩ := Unary.rule_not.mp hr
    obtain ⟨t, ht, ht'⟩ := ha.truth
    exact Agrees.of_eq (evaluate_not.mpr ⟨t, ht, rfl⟩) (evaluate_not.mpr ⟨t, ht', rfl⟩)
      (Truth.toNumber_isFinite _) rfl
  | sqrt =>
    obtain ⟨hnum, rfl⟩ := Unary.rule_sqrt.mp hr
    obtain ⟨x, y, hx, hy, halike⟩ := ha.alike hnum
    obtain ⟨x', hx', rfl⟩ := (evaluate_sqrt hk).mp her
    rw [hx] at hx'
    cases hx'
    refine Agrees.of_eq her ((evaluate_sqrt hk').mpr ⟨y, hy, ?_⟩) fr
      (Kind.isQuote_of_isNumeric hnum)
    rw [positiveRoot_alike halike]
  | abs =>
    obtain ⟨hnum, rfl⟩ := Unary.rule_abs.mp hr
    obtain ⟨x, y, hx, hy, halike⟩ := ha.alike hnum
    exact Agrees.of_alike ((evaluate_abs hk).mpr ⟨x, hx, rfl⟩)
      ((evaluate_abs hk').mpr ⟨y, hy, rfl⟩) ((abs_alike halike).settle _)
      (Kind.isQuote_of_isNumeric hnum)

/-- A connective agrees with the same connective on operands that agree, the second if it is evaluated. -/
theorem Agrees.connective {op : Connective} (ha : Agrees env .boolean a a')
    (hb : a.ComesTo env op.neutral → Agrees env .boolean b b') :
    Agrees env .boolean (.connective op a b) (.connective op a' b') := by
  obtain ⟨t, ht, ht'⟩ := ha.truth
  by_cases hopen : t = op.neutral
  · subst hopen
    obtain ⟨u, hu, hu'⟩ := (hb ht).truth
    exact Agrees.of_eq (evaluate_connective.mpr (.inr ⟨ht, u, hu, rfl⟩))
      (evaluate_connective.mpr (.inr ⟨ht', u, hu', rfl⟩)) (Truth.toNumber_isFinite _) rfl
  · obtain rfl := Bool.eq_not_of_ne hopen
    exact Agrees.of_eq (evaluate_connective.mpr (.inl ⟨ht, rfl⟩))
      (evaluate_connective.mpr (.inl ⟨ht', rfl⟩)) (Truth.toNumber_isFinite _) rfl

/-- A defined operation agrees with the same operation on operands that agree, the second if it is
evaluated. -/
theorem Agrees.binary {op : Binary} (ha : Agrees env j a a') (hb : a.Opens env op → Agrees env k b b')
    (ka : a.HasKind j) (kb : b.HasKind k) (ka' : a'.HasKind j) (kb' : b'.HasKind k)
    (hr : op.rule j k = .ok l) (hdef : (binary op a b).Defined env) :
    Agrees env l (.binary op a b) (.binary op a' b') := by
  have hk := hasKind_binary.mpr ⟨j, k, ka, kb, hr⟩
  have hk' := hasKind_binary.mpr ⟨j, k, ka', kb', hr⟩
  obtain ⟨r, her, fr⟩ := hdef
  cases op with
  | arithmetic op =>
    obtain ⟨rfl, hnum, rfl⟩ := Binary.rule_arithmetic.mp hr
    obtain ⟨x, x', hx, hx', hxx⟩ := ha.alike hnum
    obtain ⟨y, y', hy, hy', hyy⟩ := (hb nofun).alike hnum
    have heval := (evaluate_arithmetic hk).mpr ⟨x, y, hx, hy, rfl⟩
    rw [her] at heval
    cases heval
    have halike := op.apply_alike hxx hyy (Kind.isFinite_of_settle fr)
    exact Agrees.of_alike her ((evaluate_arithmetic hk').mpr ⟨x', y', hx', hy', rfl⟩)
      (halike.settle _) (Kind.isQuote_of_isNumeric hnum)
  | comparison op =>
    obtain ⟨rfl, hnum, rfl⟩ := Binary.rule_comparison.mp hr
    obtain ⟨x, x', hx, hx', hxx⟩ := ha.alike hnum
    obtain ⟨y, y', hy, hy', hyy⟩ := (hb nofun).alike hnum
    refine Agrees.of_eq (evaluate_comparison.mpr ⟨x, y, hx, hy, rfl⟩)
      (evaluate_comparison.mpr ⟨x', y', hx', hy', ?_⟩) (Truth.toNumber_isFinite _) rfl
    rw [op.holds_alike hxx hyy]
  | connective op =>
    obtain ⟨rfl, rfl, rfl⟩ := Binary.rule_connective.mp hr
    exact ha.connective fun hopen => hb (opens_connective.mpr hopen)
  | percent =>
    obtain ⟨hj, hk0, rfl⟩ := Binary.rule_percent.mp hr
    obtain ⟨x, x', hx, hx', hxx⟩ := ha.alike hj
    obtain ⟨y, y', hy, hy', hyy⟩ := (hb nofun).alike hk0
    have heval := (evaluate_percent hk).mpr ⟨x, y, hx, hy, rfl⟩
    rw [her] at heval
    cases heval
    have halike := percentOf_alike hxx hyy (Kind.isFinite_of_settle fr)
    exact Agrees.of_alike her ((evaluate_percent hk').mpr ⟨x', y', hx', hy', rfl⟩)
      (halike.settle _) (Kind.isQuote_of_isNumeric hj)
  | lag =>
    obtain ⟨hj, rfl⟩ := Binary.rule_lag.mp hr
    obtain ⟨hquote, hnum⟩ := Kind.ofQuote?_eq_some hj
    obtain rfl := ha.fields hquote
    obtain ⟨y, y', hy, hy', hyy⟩ := (hb nofun).alike rfl
    obtain ⟨source, symbol, z, f, hs, hsym, hz, fz, hf, rfl⟩ := evaluate_lag.mp her
    rw [hy] at hz
    cases hz
    refine Agrees.of_eq her (evaluate_lag.mpr ⟨source, symbol, y', f, hs, hsym, hy', hyy.right, hf,
      ?_⟩) fr (Kind.isQuote_of_isNumeric hnum)
    rw [hyy.truncate]
  | rsi =>
    obtain ⟨rfl, rfl, rfl⟩ := Binary.rule_rsi.mp hr
    obtain ⟨x, x', hx, hx', hxx⟩ := ha.alike rfl
    obtain ⟨y, y', hy, hy', hyy⟩ := (hb nofun).alike rfl
    obtain ⟨source, symbol, u, v, hs, hsym, hu, fu, hv, fv, hpos, rfl⟩ := evaluate_rsi.mp her
    rw [hx] at hu
    rw [hy] at hv
    cases hu
    cases hv
    refine Agrees.of_eq her (evaluate_rsi.mpr ⟨source, symbol, x', y', hs, hsym, hx', hxx.right,
      hy', hyy.right, hxx.truncate ▸ hpos, ?_⟩) fr rfl
    rw [hxx.truncate, hyy.truncate]

/-- A defined operation agrees with the same operation on operands that agree, of the branches of a
choice the one that is evaluated. -/
theorem Agrees.ternary {op : Ternary} {m : Kind} (ha : Agrees env j a a')
    (hb : a.Selects env op true → Agrees env k b b')
    (hc : a.Selects env op false → Agrees env l c c') (ka : a.HasKind j) (kb : b.HasKind k)
    (kc : c.HasKind l) (ka' : a'.HasKind j) (kb' : b'.HasKind k) (kc' : c'.HasKind l)
    (hr : op.rule j k l = .ok m) (hdef : (ternary op a b c).Defined env) :
    Agrees env m (.ternary op a b c) (.ternary op a' b' c') := by
  have hk := hasKind_ternary.mpr ⟨j, k, l, ka, kb, kc, hr⟩
  have hk' := hasKind_ternary.mpr ⟨j, k, l, ka', kb', kc', hr⟩
  obtain ⟨r, her, fr⟩ := hdef
  cases op with
  | choice =>
    obtain ⟨rfl, rfl, hquote, rfl⟩ := Ternary.rule_choice.mp hr
    obtain ⟨t, ht, ht'⟩ := ha.truth
    cases t with
    | true => exact (hb fun _ => ht).of_evaluate hquote (evaluate_choice_of ht) (evaluate_choice_of ht')
    | false => exact (hc fun _ => ht).of_evaluate hquote (evaluate_choice_of ht) (evaluate_choice_of ht')
  | statistic s =>
    obtain ⟨hj, rfl, rfl⟩ := Ternary.rule_statistic.mp hr
    obtain ⟨hquote, hnum⟩ := Kind.ofQuote?_eq_some hj
    obtain rfl := ha.fields hquote
    obtain ⟨y, y', hy, hy', hyy⟩ := (hb nofun).alike rfl
    obtain ⟨z, z', hz, hz', hzz⟩ := (hc nofun).alike rfl
    obtain ⟨source, symbol, u, v, f, hs, hsym, hu, fu, hv, fv, hpos, hf, rfl⟩ :=
      (evaluate_statistic hk).mp her
    rw [hy] at hu
    rw [hz] at hv
    cases hu
    cases hv
    refine Agrees.of_eq her ((evaluate_statistic hk').mpr ⟨source, symbol, y', z', f, hs, hsym, hy',
      hyy.right, hz', hzz.right, hyy.truncate ▸ hpos, hf, ?_⟩) fr (Kind.isQuote_of_isNumeric hnum)
    rw [hyy.truncate, hzz.truncate]
  | correlation partner =>
    obtain ⟨⟨number, hj⟩, rfl, rfl, rfl⟩ := Ternary.rule_correlation.mp hr
    obtain rfl := ha.fields (Kind.ofQuote?_eq_some hj).1
    obtain ⟨y, y', hy, hy', hyy⟩ := (hb nofun).alike rfl
    obtain ⟨z, z', hz, hz', hzz⟩ := (hc nofun).alike rfl
    obtain ⟨source, symbol, other, u, v, f, hs, hsym, hp, hu, fu, hv, fv, hpos, hf, rfl⟩ :=
      evaluate_correlation.mp her
    rw [hy] at hu
    rw [hz] at hv
    cases hu
    cases hv
    refine Agrees.of_eq her (evaluate_correlation.mpr ⟨source, symbol, other, y', z', f, hs, hsym,
      hp, hy', hyy.right, hz', hzz.right, hyy.truncate ▸ hpos, hf, ?_⟩) fr rfl
    rw [hyy.truncate, hzz.truncate]

theorem Smoothing.ne_zero {w : Float} (h : Smoothing.least ≤ w) (hw : w.isFinite = true) :
    exact w ≠ 0 := by
  have hleast : Smoothing.least.isFinite = true := by decide +kernel
  have hpos : ¬Smoothing.least ≤ (0.0 : Float) := by decide +kernel
  intro hz
  rw [le_iff_exact hleast zero_exact.1, zero_exact.2] at hpos
  rw [le_iff_exact hleast hw, hz] at h
  exact hpos h

/-- A defined operation agrees with the same operation on operands that agree. -/
theorem Agrees.quaternary {op : Quaternary} {m r : Kind} (ha : Agrees env j a a')
    (hb : Agrees env k b b') (hc : Agrees env l c c') (hd : Agrees env m d d')
    (ka : a.HasKind j) (kb : b.HasKind k) (kc : c.HasKind l) (kd : d.HasKind m)
    (ka' : a'.HasKind j) (kb' : b'.HasKind k) (kc' : c'.HasKind l) (kd' : d'.HasKind m)
    (hr : op.rule j k l m = .ok r) (hdef : (quaternary op a b c d).Defined env) :
    Agrees env r (.quaternary op a b c d) (.quaternary op a' b' c' d') := by
  have hk := hasKind_quaternary.mpr ⟨j, k, l, m, ka, kb, kc, kd, hr⟩
  have hk' := hasKind_quaternary.mpr ⟨j, k, l, m, ka', kb', kc', kd', hr⟩
  obtain ⟨v, hev, fv⟩ := hdef
  cases op with
  | ema =>
    obtain ⟨hj, rfl, rfl, rfl⟩ := Quaternary.rule_ema.mp hr
    obtain ⟨hquote, hnum⟩ := Kind.ofQuote?_eq_some hj
    obtain rfl := ha.fields hquote
    obtain ⟨y, y', hy, hy', hyy⟩ := hb.alike rfl
    obtain ⟨z, z', hz, hz', hzz⟩ := hc.alike rfl
    obtain ⟨w, w', hw, hw', hww⟩ := hd.alike rfl
    obtain ⟨source, symbol, p, o, s, f, hs, hlow, hhigh, hsrc, hsym, hp, fp, ho, fo, hpos, hf, rfl⟩ :=
      (evaluate_ema hk).mp hev
    rw [hy] at hp
    rw [hz] at ho
    rw [hw] at hs
    cases hp
    cases ho
    cases hs
    -- A smoothing constant is not zero, so it is not only alike but the same.
    obtain rfl : w = w' := eq_of_exact_eq hww.exact_eq (Smoothing.ne_zero hlow hww.left)
    refine Agrees.of_eq hev ((evaluate_ema hk').mpr ⟨source, symbol, y', z', w, f, hw', hlow, hhigh,
      hsrc, hsym, hy', hyy.right, hz', hzz.right, hyy.truncate ▸ hpos, hf, ?_⟩) fv
      (Kind.isQuote_of_isNumeric hnum)
    rw [hyy.truncate, hzz.truncate]

end Expr

end TradeRules
