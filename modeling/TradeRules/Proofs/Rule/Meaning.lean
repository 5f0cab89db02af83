import TradeRules.Proofs.Rule.Equality
import TradeRules.Proofs.Rule.Simplify
import TradeRules.Proofs.Rule.Values

/-!
# Simplification preserves meaning

A well-typed tree and its simplified form evaluate to equal numbers, or to values of the same truth
(`simplify_preserves_value`).  The equations behind the rules hold of exact numbers, and doubles that
round the same number agree, so nothing is assumed of the arithmetic of doubles.

What is assumed is that the tree is `Regular` at the nodes that evaluation comes to: each has a finite
value, whole literals are exactly representable, variables of whole numbers hold whole numbers, and no
divisor is zero.  Such trees are closed under the rules, so the induction goes from the leaves up with one
lemma for each rule, and `agrees_of_same` for those that compare two operands (`simplifies_simplify`).

A rule may merge the branches of a choice, of which only one has been evaluated.  Then both must be
regular or neither (`MergesSafely`).  In a tree that is regular at all nodes they always are.
-/

namespace TradeRules

open Double

variable {env : Environment}

namespace Expr

variable {a b c d e r : Expr} {a' b' c' d' : Expr} {j k l : Kind} {x y z : Float} {t : Bool}

/-! ## Regular trees -/

/-- What the rules need to hold at a node. -/
structure Regular (env : Environment) (e : Expr) : Prop where
  /-- The subtree has a finite value. -/
  defined : e.Defined env
  /-- A whole literal is exactly representable. -/
  literal : ∀ l, e = .number l → l.IsExact
  /-- A variable of whole numbers holds one. -/
  whole : ∀ name x, e = .leaf (.variable name .integer) → e.evaluate env = .ok x → IsWhole x
  /-- A divisor is not zero. -/
  divisor : ∀ a b y, e = .arithmetic .divide a b → b.evaluate env = .ok y → (y == 0.0) = false

/-- Whether evaluation comes to regular nodes only. -/
def Runs (env : Environment) (e : Expr) : Prop :=
  e.Reached env (Regular env)

theorem Runs.defined (h : e.Runs env) : e.Reached env (Defined env) :=
  h.mono fun _ => Regular.defined

theorem isFinite_of_runs (h : a.Runs env) (hx : a.evaluate env = .ok x) : x.isFinite = true := by
  obtain ⟨y, hy, fy⟩ := h.root.defined
  rw [hx] at hy
  cases hy
  exact fy

/-- A node that is neither a leaf nor a quotient is regular when it has a finite value. -/
theorem Regular.of_defined (h : e.Defined env) (hleaf : ∀ l, e ≠ .leaf l)
    (hdiv : ∀ a b, e ≠ .arithmetic .divide a b) : Regular env e :=
  ⟨h, fun _ hl => absurd hl (hleaf _), fun _ _ hv => absurd hv (hleaf _),
    fun a b _ hq => absurd hq (hdiv a b)⟩

theorem regular_number {n : Literal} (h : n.IsExact) : Regular env (number n) := by
  refine ⟨⟨n.toDouble, rfl, n.toDouble_isFinite⟩, ?_, ?_, ?_⟩
  · intro l hl
    cases hl
    exact h
  · intro name x hv
    cases hv
  · intro a b y hq
    cases hq

theorem regular_truth (t : Bool) : Regular env (truth t) := by
  refine ⟨⟨Truth.toNumber t, rfl, Truth.toNumber_isFinite t⟩, ?_, ?_, ?_⟩
  · intro l hl
    cases hl
  · intro name x hv
    cases hv
  · intro a b y hq
    cases hq

theorem Regular.holdsKind (h : Regular env e) : HoldsKind env .integer e := by
  intro name v x he hv hx
  cases v with
  | boolean => cases hv
  | integer => exact .inl (h.whole name x he hx)
  | float => cases hv

/-- The value of a well-typed tree of whole numbers is whole. -/
theorem isWhole_of_integer (hvol : env.WholeVolumes) (hk : e.HasKind .integer) (hruns : e.Runs env)
    (hx : e.evaluate env = .ok x) : IsWhole x := by
  rcases admits_of_evaluate hvol hk (hruns.mono fun _ => Regular.holdsKind) hx with h | h
  · exact h
  · rw [isFinite_of_runs hruns hx] at h
    cases h

/-! ## Trees that are the same up to the order of operands -/

/-- Operands of a commutative operation may be exchanged when both are evaluated. -/
theorem agrees_comm {op : Binary} (hop : op.commutative = true)
    (hstrict : ∀ c, op ≠ .connective c) (ka : a.HasKind j)
    (kb : b.HasKind k) (hr : op.rule j k = .ok l) (da : a.Defined env) (db : b.Defined env)
    (hdef : (binary op a b).Defined env) : Agrees env l (.binary op a b) (.binary op b a) := by
  obtain ⟨x, hx, fx⟩ := da
  obtain ⟨y, hy, fy⟩ := db
  have hk := hasKind_binary.mpr ⟨j, k, ka, kb, hr⟩
  obtain ⟨v, hv, fv⟩ := hdef
  cases op with
  | arithmetic op =>
    obtain ⟨rfl, hnum, rfl⟩ := Binary.rule_arithmetic.mp hr
    have hk' : (arithmetic op b a).HasKind _ := hasKind_arithmetic kb ka hnum
    have heval := (evaluate_arithmetic hk).mpr ⟨x, y, hx, hy, rfl⟩
    rw [hv] at heval
    cases heval
    have hfin := Kind.isFinite_of_settle fv
    have hround := op.apply_isRounding fx fy
    have hround' := op.apply_isRounding fy fx
    have hcomm : op.exactly (exact y) (exact x) = op.exactly (exact x) (exact y) := by
      cases op with
      | add => exact add_comm _ _
      | multiply => exact mul_comm _ _
      | subtract => cases hop
      | divide => cases hop
    rw [hcomm] at hround'
    exact Agrees.of_alike hv ((evaluate_arithmetic hk').mpr ⟨y, x, hy, hx, rfl⟩)
      ((Alike.of_isRounding hround hround' hfin).settle _) (Kind.isQuote_of_isNumeric hnum)
  | comparison op =>
    obtain ⟨rfl, hnum, rfl⟩ := Binary.rule_comparison.mp hr
    refine Agrees.of_eq (evaluate_comparison.mpr ⟨x, y, hx, hy, rfl⟩)
      (evaluate_comparison.mpr ⟨y, x, hy, hx, ?_⟩) (Truth.toNumber_isFinite _) rfl
    rw [op.holds_eq fx fy, op.holds_eq fy fx, ← cmp_swap (exact y) (exact x)]
    cases op <;> cases hop <;> cases cmp (exact y) (exact x) <;> rfl
  | connective op => exact absurd rfl (hstrict op)
  | percent => cases hop
  | lag => cases hop
  | rsi => cases hop

/-- Connectives whose operands agree crosswise agree.  An operand is compared with the one it agrees with
only if both are evaluated, and if one of them is not, the first operands have decided alike. -/
theorem agrees_crosswise {op : Connective} (da : a.Defined env) (da' : a'.Defined env)
    (hab : a'.ComesTo env op.neutral → Agrees env .boolean a b')
    (hba : a.ComesTo env op.neutral → Agrees env .boolean b a') :
    Agrees env .boolean (connective op a b) (connective op a' b') := by
  obtain ⟨t, ht⟩ := da.comesTo
  obtain ⟨t', ht'⟩ := da'.comesTo
  have hleft : t = op.neutral → b.ComesTo env t' := fun hopen =>
    (hba (hopen ▸ ht)).symm.comesTo ht'
  have hright : t' = op.neutral → b'.ComesTo env t := fun hopen =>
    (hab (hopen ▸ ht')).comesTo ht
  by_cases hopen : t = op.neutral
  · have heval : (connective op a b).evaluate env = .ok (Truth.toNumber t') :=
      evaluate_connective.mpr (.inr ⟨hopen ▸ ht, t', hleft hopen, rfl⟩)
    by_cases hopen' : t' = op.neutral
    · obtain rfl : t = t' := hopen.trans hopen'.symm
      exact Agrees.of_eq heval (evaluate_connective_of ht' hright) (Truth.toNumber_isFinite _) rfl
    · exact Agrees.of_eq heval (evaluate_connective_of ht' fun h => absurd h hopen')
        (Truth.toNumber_isFinite _) rfl
  · have heval : (connective op a b).evaluate env = .ok (Truth.toNumber t) :=
      evaluate_connective_of ht fun h => absurd h hopen
    by_cases hopen' : t' = op.neutral
    · exact Agrees.of_eq heval
        (evaluate_connective.mpr (.inr ⟨hopen' ▸ ht', t, hright hopen', rfl⟩))
        (Truth.toNumber_isFinite _) rfl
    · obtain rfl : t = t' := (Bool.eq_not_of_ne hopen).trans (Bool.eq_not_of_ne hopen').symm
      exact Agrees.of_eq heval (evaluate_connective_of ht' fun h => absurd h hopen')
        (Truth.toNumber_isFinite _) rfl

/-- Rearranged trees agree when evaluation succeeds at all nodes it comes to in either. -/
theorem Rearranged.agrees (h : Rearranged (·.commutative = true) a b) (ka : a.HasKind j)
    (da : a.Reached env (Defined env)) (db : b.Reached env (Defined env)) : Agrees env j a b := by
  induction h generalizing j with
  | leaf h =>
    rcases Leaf.eq_or_number_of_same h with rfl | ⟨m, n, rfl, rfl, hmn⟩
    · exact Agrees.refl da
    · obtain rfl := hasKind_number.mp ka
      exact Agrees.of_alike rfl rfl (Literal.alike_of_same hmn).2
        (Kind.isQuote_of_isNumeric m.kind_isNumeric)
  | unary op ha iha =>
    obtain ⟨p, kx, hr⟩ := hasKind_unary.mp ka
    exact (iha kx da.2 db.2).unary kx (ha.hasKind (fun _ => id) kx) hr da.1
  | binary op ha hb iha ihb =>
    obtain ⟨p, q, kx, ky, hr⟩ := hasKind_binary.mp ka
    have hag := iha kx da.2.1 db.2.1
    exact hag.binary (fun hopen => ihb ky (da.2.2 hopen) (db.2.2 (hag.opens hr hopen))) kx ky
      (ha.hasKind (fun _ => id) kx) (hb.hasKind (fun _ => id) ky) hr da.1
  | @exchange op x x' y y' hop ha hb iha ihb =>
    obtain ⟨p, q, kx, ky, hr⟩ := hasKind_binary.mp ka
    have ky' := ha.hasKind (fun _ => id) kx
    have kx' := hb.hasKind (fun _ => id) ky
    by_cases hconn : ∃ c, op = .connective c
    · obtain ⟨c, rfl⟩ := hconn
      obtain ⟨rfl, rfl, rfl⟩ := Binary.rule_connective.mp hr
      exact agrees_crosswise da.2.1.root db.2.1.root
        (fun hopen => iha kx da.2.1 (db.2.2 (opens_connective.mpr hopen)))
        (fun hopen => ihb ky (da.2.2 (opens_connective.mpr hopen)) db.2.1)
    · -- Both operands are evaluated, and the second tree is compared with its operands exchanged.
      have hstrict : ∀ c, op ≠ .connective c := fun c hc => hconn ⟨c, hc⟩
      have hopens : ∀ e : Expr, e.Opens env op := fun e c hc => absurd hc (hstrict c)
      have hagx := iha kx da.2.1 (db.2.2 (hopens _))
      have hagy := ihb ky (da.2.2 (hopens _)) db.2.1
      have hcross := hagx.binary (fun _ => hagy) kx ky ky' kx' hr da.1
      exact hcross.trans (agrees_comm hop hstrict ky' kx' hr hagx.right hagy.right hcross.right)
  | ternary op ha hb hc iha ihb ihc =>
    obtain ⟨p, q, s, kx, ky, kz, hr⟩ := hasKind_ternary.mp ka
    have hag := iha kx da.2.1 db.2.1
    exact hag.ternary
      (fun hselect => ihb ky (da.2.2.1 hselect) (db.2.2.1 (hag.selects hr hselect)))
      (fun hselect => ihc kz (da.2.2.2 hselect) (db.2.2.2 (hag.selects hr hselect))) kx ky kz
      (ha.hasKind (fun _ => id) kx) (hb.hasKind (fun _ => id) ky) (hc.hasKind (fun _ => id) kz) hr
      da.1
  | quaternary op ha hb hc hd iha ihb ihc ihd =>
    obtain ⟨p, q, s, t, kx, ky, kz, kw, hr⟩ := hasKind_quaternary.mp ka
    exact (iha kx da.2.1 db.2.1).quaternary (ihb ky da.2.2.1 db.2.2.1)
      (ihc kz da.2.2.2.1 db.2.2.2.1) (ihd kw da.2.2.2.2 db.2.2.2.2) kx ky kz kw
      (ha.hasKind (fun _ => id) kx) (hb.hasKind (fun _ => id) ky) (hc.hasKind (fun _ => id) kz)
      (hd.hasKind (fun _ => id) kw) hr da.1

/-- Trees that are the same up to the order of operands agree. -/
theorem agrees_of_same (h : a.same b = true) (ka : a.HasKind j) (ra : a.Runs env)
    (rb : b.Runs env) : Agrees env j a b :=
  (same_iff.mp h).agrees ka ra.defined rb.defined

/-! ## One rule at a time -/

/-- A tree that a rule may put in the place of another. -/
structure Simplifies (env : Environment) (k : Kind) (e r : Expr) : Prop where
  runs : r.Runs env
  agrees : Agrees env k e r

theorem Simplifies.refl (h : e.Runs env) : Simplifies env k e e :=
  ⟨h, Agrees.refl h.root.defined⟩

theorem Simplifies.of_agrees (h : Agrees env k e a) (h' : Simplifies env k a r) :
    Simplifies env k e r :=
  ⟨h'.runs, h.trans h'.agrees⟩

/-- The literal of a settled result is exact, and has its value. -/
theorem Literal.ofKind?_spec {n : Literal} (h : Literal.ofKind? k x = some n) :
    x.isFinite = true ∧ n.toDouble = k.settle x ∧ n.IsExact := by
  cases k with
  | boolean => cases h
  | integer =>
    simp only [Literal.ofKind?, Literal.ofInt?] at h
    split_ifs at h with hx hn
    cases h
    have hexact := ofInt_truncate hx
    refine ⟨hx, by simp [Kind.settle, hx, Literal.toDouble], ?_⟩
    rw [Literal.IsExact, truncate_eq hexact.1, hexact.2, towardZero_intCast, ← truncate_eq hx]
  | float =>
    simp only [Literal.ofKind?, Literal.ofDouble?] at h
    split_ifs at h with hx
    cases h
    exact ⟨hx, by simp [Kind.settle, Literal.toDouble], trivial⟩
  | integerQuote => cases h
  | floatQuote => cases h

/-- A computed literal may stand for a node with that result. -/
theorem simplifies_fold {n : Literal} (he : e.evaluate env = .ok (n.kind.settle x))
    (h : n.fold x = some r) : Simplifies env n.kind e r := by
  obtain ⟨l, rfl, hl⟩ := Literal.fold_eq_some h
  obtain ⟨fx, hval, hexact⟩ := Literal.ofKind?_spec hl
  refine ⟨regular_number hexact, ?_⟩
  refine Agrees.of_eq he (by rw [← hval]; rfl) ?_ (Kind.isQuote_of_isNumeric n.kind_isNumeric)
  exact (n.kind.settle_exact fx).1

theorem simplifies_getD_fold {n : Literal} (hruns : e.Runs env)
    (he : e.evaluate env = .ok (n.kind.settle x)) :
    Simplifies env n.kind e ((n.fold x).getD e) := by
  cases hf : n.fold x with
  | none => exact Simplifies.refl hruns
  | some r => exact simplifies_fold he hf

/-- A small whole number as a literal has that number as its value. -/
theorem isNumber_spec {n : ℕ} (hn : n ≤ 2 ^ 53) (h : a.isNumber n = true) :
    ∃ l, a = .number l ∧ exact l.toDouble = n := by
  unfold isNumber at h
  split at h
  · next l =>
    refine ⟨l, rfl, ?_⟩
    cases l with
    | whole m hm =>
      obtain rfl : m = n := by simpa [Literal.isExactly] using h
      exact (ofInt_exact (n := n) (by rw [Nat.abs_cast]; exact_mod_cast hn)).2
    | real y hy =>
      have heq := (beq_iff_exact hy (ofNat_exact hn).1).mp h
      rw [(ofNat_exact hn).2] at heq
      exact heq
  · cases h

/-- An arithmetic result that is a number of its kind exactly is alike to that number. -/
theorem alike_settle_apply {op : Arithmetic} (hx : x.isFinite = true) (hy : y.isFinite = true)
    (hz : z.isFinite = true) (h : op.exactly (exact x) (exact y) = exact z)
    (hwhole : k = .integer → IsWhole z) : Alike (k.settle (op.apply x y)) z := by
  have hround := op.apply_isRounding hx hy
  rw [h] at hround
  obtain ⟨hfin, heq⟩ := hround.of_exact
  have hsettle := k.settle_exact hfin
  exact ⟨hsettle.1, hz, by rw [hsettle.2, heq, Kind.settled_of_isWhole hz hwhole]⟩

/-- Two trees of one kind of numbers, with their values. -/
structure Operands (env : Environment) (j : Kind) (a b : Expr) (x y : Float) : Prop where
  numeric : j.isNumeric = true
  leftKind : a.HasKind j
  rightKind : b.HasKind j
  leftRuns : a.Runs env
  rightRuns : b.Runs env
  leftValue : a.evaluate env = .ok x
  rightValue : b.evaluate env = .ok y
  leftWhole : j = .integer → IsWhole x
  rightWhole : j = .integer → IsWhole y

theorem exists_operands (hvol : env.WholeVolumes) (hj : j.isNumeric = true) (ka : a.HasKind j)
    (kb : b.HasKind j) (ra : a.Runs env) (rb : b.Runs env) :
    ∃ x y, Operands env j a b x y := by
  obtain ⟨x, hx, -⟩ := ra.root.defined
  obtain ⟨y, hy, -⟩ := rb.root.defined
  refine ⟨x, y, hj, ka, kb, ra, rb, hx, hy, ?_, ?_⟩
  · rintro rfl
    exact isWhole_of_integer hvol ka ra hx
  · rintro rfl
    exact isWhole_of_integer hvol kb rb hy

namespace Operands

variable {op : Arithmetic}

theorem leftFinite (h : Operands env j a b x y) : x.isFinite = true :=
  isFinite_of_runs h.leftRuns h.leftValue

theorem rightFinite (h : Operands env j a b x y) : y.isFinite = true :=
  isFinite_of_runs h.rightRuns h.rightValue

theorem evaluate (h : Operands env j a b x y) (op : Arithmetic) :
    (arithmetic op a b).evaluate env = .ok (j.settle (op.apply x y)) :=
  (evaluate_arithmetic (hasKind_arithmetic h.leftKind h.rightKind h.numeric)).mpr
    ⟨x, y, h.leftValue, h.rightValue, rfl⟩

/-- A tree may stand for an operation when its value is the exact result. -/
theorem simplifies (h : Operands env j a b x y) (hr : r.Runs env)
    (hz : r.evaluate env = .ok z) (hexact : op.exactly (exact x) (exact y) = exact z)
    (hwhole : j = .integer → IsWhole z) : Simplifies env j (arithmetic op a b) r :=
  ⟨hr, Agrees.of_alike (h.evaluate op) hz
    (alike_settle_apply h.leftFinite h.rightFinite (isFinite_of_runs hr hz) hexact hwhole)
    (Kind.isQuote_of_isNumeric h.numeric)⟩

/-- The first operand may stand for an operation that leaves it as it is. -/
theorem simplifies_left (h : Operands env j a b x y)
    (hexact : op.exactly (exact x) (exact y) = exact x) :
    Simplifies env j (arithmetic op a b) a :=
  h.simplifies h.leftRuns h.leftValue hexact h.leftWhole

/-- The second operand may stand for an operation that leaves it as it is. -/
theorem simplifies_right (h : Operands env j a b x y)
    (hexact : op.exactly (exact x) (exact y) = exact y) :
    Simplifies env j (arithmetic op a b) b :=
  h.simplifies h.rightRuns h.rightValue hexact h.rightWhole

/-- A small literal may stand for an operation with that result. -/
theorem simplifies_small {n : ℕ} (hn : n ≤ 2 ^ 53) (h : Operands env j a b x y)
    (hexact : op.exactly (exact x) (exact y) = n) (hr : smallLike n a = .ok r) :
    Simplifies env j (arithmetic op a b) r := by
  obtain ⟨l, hl, -, hval, hl'⟩ := smallLike_spec hn h.leftKind h.numeric
  obtain rfl := Except.ok.inj (hl.symm.trans hr)
  obtain ⟨fin, hn'⟩ := ofInt_exact (n := n) (by rw [Nat.abs_cast]; exact_mod_cast hn)
  refine h.simplifies (regular_number hl') (z := ofInt n) (by rw [← hval]; rfl) ?_
    fun _ => isWhole_of_exact fin hn'
  rw [hexact, hn', Int.cast_natCast]

/-- The value of an operand that is a small literal. -/
theorem left_eq {n : ℕ} (h : Operands env j a b x y) (hn : n ≤ 2 ^ 53)
    (ha : a.isNumber n = true) : exact x = n := by
  obtain ⟨l, rfl, hl⟩ := isNumber_spec hn ha
  cases h.leftValue
  exact hl

theorem right_eq {n : ℕ} (h : Operands env j a b x y) (hn : n ≤ 2 ^ 53)
    (hb : b.isNumber n = true) : exact y = n := by
  obtain ⟨l, rfl, hl⟩ := isNumber_spec hn hb
  cases h.rightValue
  exact hl

/-- Operands that are the same up to order have one value. -/
theorem exact_eq (h : Operands env j a b x y) (hsame : a.same b = true) : exact x = exact y := by
  have hag := agrees_of_same hsame h.leftKind h.leftRuns h.rightRuns
  obtain ⟨x', y', hx, hy, hxy⟩ := hag.alike h.numeric
  rw [h.leftValue] at hx
  rw [h.rightValue] at hy
  cases hx
  cases hy
  exact hxy.exact_eq

/-- A sum of two equal numbers is twice the first. -/
theorem simplifies_double (h : Operands env j a b x y) (hsame : a.same b = true) {two : Expr}
    (htwo : smallLike 2 a = .ok two) (hfin : (x + y).isFinite = true) :
    Simplifies env j (arithmetic .add a b) (arithmetic .multiply two a) := by
  obtain ⟨l, hl, hkind, hval, hl'⟩ := smallLike_spec (n := 2) (by norm_num) h.leftKind h.numeric
  obtain rfl := Except.ok.inj (hl.symm.trans htwo)
  obtain ⟨ftwo, htwo'⟩ := ofInt_exact (n := (2 : ℕ)) (by norm_num)
  have hl2 : l.toDouble = ofInt (2 : ℕ) := hval
  have hkindTwo : (number l).HasKind j := hasKind_number.mpr hkind
  have hnode : (arithmetic .multiply (number l) a).HasKind j :=
    hasKind_arithmetic hkindTwo h.leftKind h.numeric
  have hmul : (arithmetic .multiply (number l) a).evaluate env =
      .ok (j.settle (l.toDouble * x)) :=
    (evaluate_arithmetic hnode).mpr ⟨_, x, rfl, h.leftValue, rfl⟩
  have halike : Alike (x + y) (l.toDouble * x) := by
    have hsum := add_isRounding h.leftFinite h.rightFinite
    have hprod := mul_isRounding (hl2 ▸ ftwo : l.toDouble.isFinite = true) h.leftFinite
    have heq : exact l.toDouble * exact x = exact x + exact y := by
      rw [hl2, htwo', ← h.exact_eq hsame]
      push_cast
      ring
    rw [heq] at hprod
    exact Alike.of_isRounding hsum hprod hfin
  have hagrees := Agrees.of_alike (h.evaluate .add) hmul (halike.settle j)
    (Kind.isQuote_of_isNumeric h.numeric)
  refine ⟨⟨?_, regular_number hl', fun _ => h.leftRuns⟩, hagrees⟩
  exact Regular.of_defined hagrees.right (fun _ h => by cases h) (fun _ _ h => by cases h)

end Operands

/-- The identities of arithmetic hold of operands with values. -/
theorem simplifies_identities {op : Arithmetic} (h : Operands env j a b x y)
    (hreg : Regular env (arithmetic op a b)) (hr : identities op a b = .ok r) :
    Simplifies env j (arithmetic op a b) r := by
  have hnode : (arithmetic op a b).Runs env := ⟨hreg, h.leftRuns, fun _ => h.rightRuns⟩
  cases op with
  | add =>
    simp only [identities] at hr
    split_ifs at hr with h1 h2 h3
    · cases hr
      exact h.simplifies_left (by simp [Arithmetic.exactly, h.right_eq (by norm_num) h1])
    · cases hr
      exact h.simplifies_right (by simp [Arithmetic.exactly, h.left_eq (by norm_num) h2])
    · obtain ⟨two, htwo, hr⟩ := bind_eq_ok.mp hr
      rw [pure_eq_ok] at hr
      rw [hr]
      obtain ⟨v, hv, fv⟩ := hreg.defined
      rw [h.evaluate .add] at hv
      cases hv
      exact h.simplifies_double h3 htwo (Kind.isFinite_of_settle fv)
    · cases hr
      exact Simplifies.refl hnode
  | subtract =>
    simp only [identities] at hr
    split_ifs at hr with h1 h2
    · cases hr
      exact h.simplifies_left (by simp [Arithmetic.exactly, h.right_eq (by norm_num) h1])
    · exact h.simplifies_small (by norm_num) (by simp [Arithmetic.exactly, h.exact_eq h2]) hr
    · cases hr
      exact Simplifies.refl hnode
  | multiply =>
    simp only [identities, Bool.or_eq_true] at hr
    split_ifs at hr with h1 h2 h3
    · refine h.simplifies_small (by norm_num) ?_ hr
      rcases h1 with h1 | h1
      · simp [Arithmetic.exactly, h.left_eq (by norm_num) h1]
      · simp [Arithmetic.exactly, h.right_eq (by norm_num) h1]
    · cases hr
      exact h.simplifies_right (by simp [Arithmetic.exactly, h.left_eq (by norm_num) h2])
    · cases hr
      exact h.simplifies_left (by simp [Arithmetic.exactly, h.right_eq (by norm_num) h3])
    · cases hr
      exact Simplifies.refl hnode
  | divide =>
    have hne : exact y ≠ 0 := by
      have hz := hreg.divisor a b y rfl h.rightValue
      intro hzero
      rw [(beq_iff_exact h.rightFinite zero_exact.1).mpr (by rw [hzero, zero_exact.2])] at hz
      cases hz
    simp only [identities] at hr
    split_ifs at hr with h1 h2 h3
    · cases hr
      exact h.simplifies_left (by simp [Arithmetic.exactly, h.right_eq (by norm_num) h1])
    · exact h.simplifies_small (by norm_num)
        (by simp [Arithmetic.exactly, h.left_eq (by norm_num) h2]) hr
    · refine h.simplifies_small (by norm_num) ?_ hr
      rw [Arithmetic.exactly, if_neg hne, h.exact_eq h3, div_self hne]
      norm_num
    · cases hr
      exact Simplifies.refl hnode

/-- Folding computes the value of the node. -/
theorem simplifies_arithmetic {op : Arithmetic} (h : Operands env j a b x y)
    (hreg : Regular env (arithmetic op a b)) (hr : reduceArithmetic op a b = .ok r) :
    Simplifies env j (arithmetic op a b) r := by
  unfold reduceArithmetic at hr
  cases hf : foldArithmetic op a b with
  | none =>
    rw [hf] at hr
    exact simplifies_identities h hreg hr
  | some e =>
    rw [hf] at hr
    cases hr
    obtain ⟨l, m, rfl, rfl, hfold⟩ := foldArithmetic_eq_some hf
    obtain rfl := hasKind_number.mp h.leftKind
    cases h.leftValue
    cases h.rightValue
    exact simplifies_fold (h.evaluate op) hfold

theorem simplifies_percent (hk : (binary .percent a b).HasKind j)
    (hruns : (binary .percent a b).Runs env) :
    Simplifies env j (binary .percent a b) (reducePercent a b) := by
  unfold reducePercent
  split
  · next l m =>
    obtain ⟨p, q, kl, -, hr⟩ := hasKind_binary.mp hk
    obtain ⟨-, -, rfl⟩ := Binary.rule_percent.mp hr
    obtain rfl := hasKind_number.mp kl
    exact simplifies_getD_fold hruns ((evaluate_percent hk).mpr ⟨_, _, rfl, rfl, rfl⟩)
  · exact Simplifies.refl hruns

theorem simplifies_sqrt (hk : (unary .sqrt a).HasKind j)
    (hruns : (unary .sqrt a).Runs env) :
    Simplifies env j (unary .sqrt a) (reduceFunction .sqrt positiveRoot a) := by
  unfold reduceFunction
  split
  · next l =>
    obtain ⟨p, kl, hr⟩ := hasKind_unary.mp hk
    obtain ⟨-, rfl⟩ := Unary.rule_sqrt.mp hr
    obtain rfl := hasKind_number.mp kl
    exact simplifies_getD_fold hruns ((evaluate_sqrt hk).mpr ⟨_, rfl, rfl⟩)
  · exact Simplifies.refl hruns

theorem simplifies_abs (hk : (unary .abs a).HasKind j)
    (hruns : (unary .abs a).Runs env) :
    Simplifies env j (unary .abs a) (reduceFunction .abs Float.abs a) := by
  unfold reduceFunction
  split
  · next l =>
    obtain ⟨p, kl, hr⟩ := hasKind_unary.mp hk
    obtain ⟨-, rfl⟩ := Unary.rule_abs.mp hr
    obtain rfl := hasKind_number.mp kl
    exact simplifies_getD_fold hruns ((evaluate_abs hk).mpr ⟨_, rfl, rfl⟩)
  · exact Simplifies.refl hruns

/-! ## Truth values -/

theorem Operands.comparison (h : Operands env j a b x y) (op : Comparison) :
    (comparison op a b).evaluate env = .ok (Truth.toNumber (op.holds x y)) :=
  evaluate_comparison.mpr ⟨x, y, h.leftValue, h.rightValue, rfl⟩

theorem runs_comparison (h : Operands env j a b x y) (op : Comparison) :
    (comparison op a b).Runs env :=
  ⟨Regular.of_defined (defined_of_truth (h.comparison op)) (fun _ h => by cases h)
    (fun _ _ h => by cases h), h.leftRuns, fun _ => h.rightRuns⟩

/-- A known truth value may stand for a comparison with that result. -/
theorem simplifies_truth {t : Bool} (he : e.evaluate env = .ok (Truth.toNumber t)) :
    Simplifies env .boolean e (truth t) :=
  ⟨regular_truth t, Agrees.of_eq he rfl (Truth.toNumber_isFinite t) rfl⟩

theorem simplifies_comparison (h : Operands env j a b x y) (op : Comparison) :
    Simplifies env .boolean (comparison op a b) (reduceComparison op a b) := by
  have heval := h.comparison op
  unfold reduceComparison
  split
  · next l m =>
    -- Literals are compared exactly, and exact literals have exact doubles.
    refine simplifies_truth ?_
    rw [Literal.holdsOf_order op (h.leftRuns.root.literal l rfl)
      (h.rightRuns.root.literal m rfl)]
    rfl
  · split_ifs with hsame
    · refine simplifies_truth ?_
      rw [← op.holds_of_alike ⟨h.leftFinite, h.rightFinite, h.exact_eq hsame⟩]
      exact heval
    · exact Simplifies.refl (runs_comparison h op)

theorem simplifies_not (hvol : env.WholeVolumes) (ka : a.HasKind .boolean)
    (hruns : (Expr.not a).Runs env) :
    Simplifies env .boolean (Expr.not a) (reduceNot a) := by
  unfold reduceNot
  split
  · next t => exact simplifies_truth (evaluate_not.mpr ⟨t, comesTo_of_truth rfl, rfl⟩)
  · next a =>
    obtain ⟨t, ht⟩ := hruns.2.2.root.defined.comesTo
    have hnot : (Expr.not a).ComesTo env (!t) := comesTo_of_truth (evaluate_not.mpr ⟨t, ht, rfl⟩)
    refine ⟨hruns.2.2, Agrees.of_comesTo hruns.1.defined hruns.2.2.root.defined ?_ ht⟩
    exact comesTo_of_truth (evaluate_not.mpr ⟨!t, hnot, by rw [Bool.not_not]⟩)
  · next op a b =>
    obtain ⟨j, k, kx, ky, hr⟩ := hasKind_binary.mp ka
    obtain ⟨rfl, hj, -⟩ := Binary.rule_comparison.mp hr
    obtain ⟨u, v, huv⟩ := exists_operands hvol hj kx ky hruns.2.2.1 (hruns.2.2.2 nofun)
    refine Simplifies.of_agrees ?_ (simplifies_comparison huv op.negation)
    refine Agrees.of_eq (evaluate_not.mpr ⟨_, comesTo_of_truth (huv.comparison op), rfl⟩) ?_
      (Truth.toNumber_isFinite _) rfl
    rw [huv.comparison, op.holds_negation huv.leftFinite huv.rightFinite]
  · exact Simplifies.refl hruns

theorem absorb_neutral (op : Connective) (e : Expr) : absorb op op.neutral e = e := by
  cases op <;> rfl

theorem absorb_decided (op : Connective) (e : Expr) :
    absorb op (!op.neutral) e = truth (!op.neutral) := by
  cases op <;> rfl

/-- A known first operand decides a connective or leaves the second. -/
theorem simplifies_absorb_left (op : Connective) (known : Bool)
    (hruns : (connective op (truth known) b).Runs env) :
    Simplifies env .boolean (connective op (truth known) b) (absorb op known b) := by
  have hknown : (truth known).ComesTo env known := comesTo_of_truth rfl
  by_cases hopen : known = op.neutral
  · subst hopen
    have hb := hruns.2.2 (opens_connective.mpr hknown)
    obtain ⟨t, ht⟩ := hb.root.defined.comesTo
    rw [absorb_neutral]
    refine ⟨hb, Agrees.of_comesTo hruns.root.defined hb.root.defined ?_ ht⟩
    exact comesTo_of_truth (evaluate_connective.mpr (.inr ⟨hknown, t, ht, rfl⟩))
  · obtain rfl := Bool.eq_not_of_ne hopen
    rw [absorb_decided]
    exact simplifies_truth (evaluate_connective.mpr (.inl ⟨hknown, rfl⟩))

/-- A known second operand leaves the first, or is what the connective comes to in any case. -/
theorem simplifies_absorb_right (op : Connective) (known : Bool)
    (hruns : (connective op a (truth known)).Runs env) :
    Simplifies env .boolean (connective op a (truth known)) (absorb op known a) := by
  obtain ⟨t, ht⟩ := hruns.2.1.root.defined.comesTo
  by_cases hopen : known = op.neutral
  · subst hopen
    rw [absorb_neutral]
    refine ⟨hruns.2.1, Agrees.of_comesTo hruns.root.defined hruns.2.1.root.defined ?_ ht⟩
    exact comesTo_of_truth (evaluate_connective_of ht fun h => h ▸ comesTo_of_truth rfl)
  · obtain rfl := Bool.eq_not_of_ne hopen
    rw [absorb_decided]
    refine simplifies_truth (evaluate_connective.mpr ?_)
    by_cases hdecided : t = !op.neutral
    · exact .inl ⟨hdecided ▸ ht, rfl⟩
    · exact .inr ⟨Bool.not_not op.neutral ▸ Bool.eq_not_of_ne hdecided ▸ ht, _,
        comesTo_of_truth rfl, rfl⟩

theorem simplifies_connective (op : Connective) (ka : a.HasKind .boolean)
    (hruns : (connective op a b).Runs env) :
    Simplifies env .boolean (connective op a b) (reduceConnective op a b) := by
  unfold reduceConnective
  split
  · exact simplifies_absorb_left op _ hruns
  · exact simplifies_absorb_right op _ hruns
  · split_ifs with hsame
    · obtain ⟨t, ht⟩ := hruns.2.1.root.defined.comesTo
      refine ⟨hruns.2.1, Agrees.of_comesTo hruns.root.defined hruns.2.1.root.defined ?_ ht⟩
      refine comesTo_of_truth (evaluate_connective_of ht fun hopen => ?_)
      have hb := hruns.2.2 (opens_connective.mpr (hopen ▸ ht))
      exact (agrees_of_same hsame ka hruns.2.1 hb).comesTo ht
    · exact Simplifies.refl hruns

/-- Branches that are the same may stand for the choice between them, when the one that is kept is
regular with the other. -/
theorem simplifies_merged (ka : a.HasKind k) (hk : k.isQuote = false)
    (hruns : (choice c a b).Runs env) (hsame : a.same b = true)
    (hmerge : a.Runs env ↔ b.Runs env) : Simplifies env k (choice c a b) a := by
  obtain ⟨t, ht⟩ := hruns.2.1.root.defined.comesTo
  cases t with
  | true =>
    have ha := hruns.2.2.1 fun _ => ht
    exact ⟨ha, (Agrees.refl ha.root.defined).of_evaluate hk (evaluate_choice_of ht) rfl⟩
  | false =>
    have hb := hruns.2.2.2 fun _ => ht
    have ha := hmerge.mpr hb
    have hag := agrees_of_same hsame ka ha hb
    exact ⟨ha, hag.symm.of_evaluate hk (evaluate_choice_of ht) rfl⟩

/-- A choice on a negated condition evaluates as the choice with its branches exchanged. -/
theorem evaluate_choice_not (hc : c.Defined env) :
    (choice (Expr.not c) a b).evaluate env = (choice c b a).evaluate env := by
  obtain ⟨t, ht⟩ := hc.comesTo
  have hnot : (Expr.not c).ComesTo env (!t) := comesTo_of_truth (evaluate_not.mpr ⟨t, ht, rfl⟩)
  rw [evaluate_choice_of hnot, evaluate_choice_of ht]
  cases t <;> rfl

theorem runs_choice_not (hruns : (choice (Expr.not c) a b).Runs env) :
    (choice c b a).Runs env := by
  have hc := hruns.2.1.2
  have hnot : ∀ t, c.Selects env .choice t → (Expr.not c).Selects env .choice (!t) :=
    fun t h _ => comesTo_of_truth (evaluate_not.mpr ⟨t, h rfl, rfl⟩)
  refine ⟨Regular.of_defined ?_ (fun _ h => by cases h) (fun _ _ h => by cases h), hc,
    fun h => hruns.2.2.2 (hnot true h), fun h => hruns.2.2.1 (hnot false h)⟩
  unfold Defined
  rw [← evaluate_choice_not hc.root.defined]
  exact hruns.root.defined

theorem simplifies_choice (kc : c.HasKind .boolean) (ka : a.HasKind k) (kb : b.HasKind k)
    (hk : k.isQuote = false) (hruns : (choice c a b).Runs env)
    (hmerge : a.same b = true → (a.Runs env ↔ b.Runs env)) :
    Simplifies env k (choice c a b) (reduceChoice c a b) := by
  fun_induction reduceChoice c a b with
  | case1 a b =>
    have htrue : (truth true).ComesTo env true := comesTo_of_truth rfl
    have ha := hruns.2.2.1 fun _ => htrue
    exact ⟨ha, (Agrees.refl ha.root.defined).of_evaluate hk (evaluate_choice_of htrue) rfl⟩
  | case2 known a b hfalse =>
    obtain rfl := Bool.eq_false_iff.mpr hfalse
    have hfalse : (truth false).ComesTo env false := comesTo_of_truth rfl
    have hb := hruns.2.2.2 fun _ => hfalse
    exact ⟨hb, (Agrees.refl hb.root.defined).of_evaluate hk (evaluate_choice_of hfalse) rfl⟩
  | case3 c a b hsame => exact simplifies_merged ka hk hruns hsame (hmerge hsame)
  | case4 c a b hsame ih =>
    obtain ⟨j, kc', hr⟩ := hasKind_unary.mp kc
    obtain ⟨rfl, -⟩ := Unary.rule_not.mp hr
    have hag : Agrees env k (choice (Expr.not c) a b) (choice c b a) :=
      (Agrees.refl hruns.root.defined).of_evaluate hk rfl
        (evaluate_choice_not hruns.2.1.2.root.defined).symm
    exact Simplifies.of_agrees hag
      (ih kc' kb ka (runs_choice_not hruns) fun h => absurd (same_symm h) hsame)
  | case5 c a b _ _ hsame => exact simplifies_merged ka hk hruns hsame (hmerge hsame)
  | case6 c a b => exact Simplifies.refl hruns

/-! ## Operands exchanged for simplified ones -/

/-- The divisor of a rebuilt node agrees with one that is not zero. -/
theorem regular_rebuilt {op : Binary} (hb : a.Opens env op → Agrees env k b d)
    (hr : op.rule j k = .ok l) (hreg : Regular env (binary op a b))
    (hdef : (binary op c d).Defined env) : Regular env (binary op c d) := by
  refine ⟨hdef, fun _ h => (by cases h), fun _ _ h => (by cases h), ?_⟩
  intro a' b' y hdiv hy
  cases hdiv
  obtain ⟨rfl, hnum, -⟩ := Binary.rule_arithmetic.mp hr
  obtain ⟨u, v, hu, hv, huv⟩ := (hb nofun).alike hnum
  rw [hy] at hv
  cases hv
  have hz := hreg.divisor a b u rfl hu
  rw [Bool.eq_false_iff, Ne, beq_iff_exact huv.left zero_exact.1] at hz
  rw [Bool.eq_false_iff, Ne, beq_iff_exact huv.right zero_exact.1, ← huv.exact_eq]
  exact hz

namespace Simplifies

theorem unary {op : Unary} (ha : Simplifies env j a a') (ka : a.HasKind j) (ka' : a'.HasKind j)
    (hr : op.rule j = .ok k) (hruns : (unary op a).Runs env) :
    Simplifies env k (.unary op a) (.unary op a') := by
  have hag := ha.agrees.unary ka ka' hr hruns.1.defined
  exact ⟨⟨Regular.of_defined hag.right (fun _ h => by cases h) (fun _ _ h => by cases h), ha.runs⟩,
    hag⟩

theorem binary {op : Binary} (ha : Simplifies env j a a')
    (hb : a.Opens env op → Simplifies env k b b') (ka : a.HasKind j) (kb : b.HasKind k)
    (ka' : a'.HasKind j) (kb' : b'.HasKind k) (hr : op.rule j k = .ok l)
    (hruns : (binary op a b).Runs env) : Simplifies env l (.binary op a b) (.binary op a' b') := by
  have hag := ha.agrees.binary (fun h => (hb h).agrees) ka kb ka' kb' hr hruns.1.defined
  refine ⟨⟨regular_rebuilt (fun h => (hb h).agrees) hr hruns.1 hag.right, ha.runs, fun h => ?_⟩, hag⟩
  exact (hb (ha.agrees.symm.opens hr h)).runs

theorem ternary {op : Ternary} {m : Kind} (ha : Simplifies env j a a')
    (hb : a.Selects env op true → Simplifies env k b b')
    (hc : a.Selects env op false → Simplifies env l c c') (ka : a.HasKind j) (kb : b.HasKind k)
    (kc : c.HasKind l) (ka' : a'.HasKind j) (kb' : b'.HasKind k) (kc' : c'.HasKind l)
    (hr : op.rule j k l = .ok m) (hruns : (ternary op a b c).Runs env) :
    Simplifies env m (.ternary op a b c) (.ternary op a' b' c') := by
  have hag := ha.agrees.ternary (fun h => (hb h).agrees) (fun h => (hc h).agrees) ka kb kc ka' kb'
    kc' hr hruns.1.defined
  exact ⟨⟨Regular.of_defined hag.right (fun _ h => by cases h) (fun _ _ h => by cases h), ha.runs,
    fun h => (hb (ha.agrees.symm.selects hr h)).runs,
    fun h => (hc (ha.agrees.symm.selects hr h)).runs⟩, hag⟩

theorem quaternary {op : Quaternary} {m n : Kind} (ha : Simplifies env j a a')
    (hb : Simplifies env k b b') (hc : Simplifies env l c c') (hd : Simplifies env m d d')
    (ka : a.HasKind j) (kb : b.HasKind k) (kc : c.HasKind l) (kd : d.HasKind m)
    (ka' : a'.HasKind j) (kb' : b'.HasKind k) (kc' : c'.HasKind l) (kd' : d'.HasKind m)
    (hr : op.rule j k l m = .ok n) (hruns : (quaternary op a b c d).Runs env) :
    Simplifies env n (.quaternary op a b c d) (.quaternary op a' b' c' d') := by
  have hag := ha.agrees.quaternary hb.agrees hc.agrees hd.agrees ka kb kc kd ka' kb' kc' kd' hr
    hruns.1.defined
  exact ⟨⟨Regular.of_defined hag.right (fun _ h => by cases h) (fun _ _ h => by cases h), ha.runs,
    hb.runs, hc.runs, hd.runs⟩, hag⟩

end Simplifies

/-! ## One pass -/

theorem simplifies_unary {op : Unary} (hvol : env.WholeVolumes) (ka : a.HasKind j)
    (hr : op.rule j = .ok k) (hruns : (unary op a).Runs env) :
    Simplifies env k (unary op a) (reduceUnary op a) := by
  have hk := hasKind_unary.mpr ⟨j, ka, hr⟩
  cases op with
  | not =>
    obtain ⟨rfl, rfl⟩ := Unary.rule_not.mp hr
    exact simplifies_not hvol ka hruns
  | sqrt => exact simplifies_sqrt hk hruns
  | abs => exact simplifies_abs hk hruns

theorem simplifies_binary {op : Binary} (hvol : env.WholeVolumes) (ka : a.HasKind j)
    (kb : b.HasKind k) (hr : op.rule j k = .ok l)
    (hruns : (binary op a b).Runs env) (he : reduceBinary op a b = .ok r) :
    Simplifies env l (binary op a b) r := by
  have hk := hasKind_binary.mpr ⟨j, k, ka, kb, hr⟩
  cases op with
  | arithmetic op =>
    obtain ⟨rfl, hj, rfl⟩ := Binary.rule_arithmetic.mp hr
    obtain ⟨x, y, hxy⟩ := exists_operands hvol hj ka kb hruns.2.1 (hruns.2.2 nofun)
    exact simplifies_arithmetic hxy hruns.root he
  | comparison op =>
    obtain ⟨rfl, hj, rfl⟩ := Binary.rule_comparison.mp hr
    obtain ⟨x, y, hxy⟩ := exists_operands hvol hj ka kb hruns.2.1 (hruns.2.2 nofun)
    cases he
    exact simplifies_comparison hxy op
  | connective op =>
    obtain ⟨rfl, rfl, rfl⟩ := Binary.rule_connective.mp hr
    cases he
    exact simplifies_connective op ka hruns
  | percent =>
    cases he
    exact simplifies_percent hk hruns
  | lag =>
    cases he
    exact Simplifies.refl hruns
  | rsi =>
    cases he
    exact Simplifies.refl hruns

theorem simplifies_ternary {op : Ternary} {m : Kind} (ka : a.HasKind j) (kb : b.HasKind k)
    (kc : c.HasKind l) (hr : op.rule j k l = .ok m)
    (hruns : (ternary op a b c).Runs env)
    (hmerge : op = .choice → b.same c = true → (b.Runs env ↔ c.Runs env)) :
    Simplifies env m (ternary op a b c) (reduceTernary op a b c) := by
  cases op with
  | choice =>
    obtain ⟨rfl, rfl, hk, rfl⟩ := Ternary.rule_choice.mp hr
    exact simplifies_choice ka kb kc hk hruns (hmerge rfl)
  | statistic s => exact Simplifies.refl hruns
  | correlation partner => exact Simplifies.refl hruns

/-- Whether the branches of a choice that a rule merges are both regular or neither. -/
def MergesSafely (env : Environment) (e : Expr) : Prop :=
  ∀ c a b a' b', e = choice c a b → a.simplify = .ok a' → b.simplify = .ok b' →
    a'.same b' = true → (a'.Runs env ↔ b'.Runs env)

/-- A tree that runs and its simplified form agree, and the form runs too. -/
theorem simplifies_simplify (hvol : env.WholeVolumes) : ∀ {e r : Expr} {k : Kind}, e.HasKind k →
    e.Everywhere (MergesSafely env) → e.Runs env → e.simplify = .ok r → Simplifies env k e r := by
  intro e
  induction e with
  | leaf l =>
    intro r k hk hmerge hruns hr
    cases hr
    exact Simplifies.refl hruns
  | unary op a iha =>
    intro r k hk hmerge hruns he
    obtain ⟨j, ka, hr⟩ := hasKind_unary.mp hk
    obtain ⟨a', ha', ka'⟩ := ka.simplify
    obtain rfl : reduceUnary op a' = r := by
      rw [simplify, ha'] at he
      exact Except.ok.inj he
    have hnode := (iha ka hmerge.2 hruns.2 ha').unary ka ka' hr hruns
    exact Simplifies.of_agrees hnode.agrees (simplifies_unary hvol ka' hr hnode.runs)
  | binary op a b iha ihb =>
    intro r k hk hmerge hruns he
    obtain ⟨j, l, ka, kb, hr⟩ := hasKind_binary.mp hk
    obtain ⟨a', ha', ka'⟩ := ka.simplify
    obtain ⟨b', hb', kb'⟩ := kb.simplify
    have hnode := (iha ka hmerge.2.1 hruns.2.1 ha').binary
      (fun h => ihb kb hmerge.2.2 (hruns.2.2 h) hb') ka kb ka' kb' hr hruns
    rw [simplify, ha', hb'] at he
    exact Simplifies.of_agrees hnode.agrees (simplifies_binary hvol ka' kb' hr hnode.runs he)
  | ternary op a b c iha ihb ihc =>
    intro r k hk hmerge hruns he
    obtain ⟨j, l, m, ka, kb, kc, hr⟩ := hasKind_ternary.mp hk
    obtain ⟨a', ha', ka'⟩ := ka.simplify
    obtain ⟨b', hb', kb'⟩ := kb.simplify
    obtain ⟨c', hc', kc'⟩ := kc.simplify
    obtain rfl : reduceTernary op a' b' c' = r := by
      rw [simplify, ha', hb', hc'] at he
      exact Except.ok.inj he
    have hnode := (iha ka hmerge.2.1 hruns.2.1 ha').ternary
      (fun h => ihb kb hmerge.2.2.1 (hruns.2.2.1 h) hb')
      (fun h => ihc kc hmerge.2.2.2 (hruns.2.2.2 h) hc') ka kb kc ka' kb' kc' hr hruns
    refine Simplifies.of_agrees hnode.agrees (simplifies_ternary ka' kb' kc' hr hnode.runs ?_)
    rintro rfl hsame
    exact hmerge.1 a b c b' c' rfl hb' hc' hsame
  | quaternary op a b c d iha ihb ihc ihd =>
    intro r k hk hmerge hruns he
    obtain ⟨j, l, m, n, ka, kb, kc, kd, hr⟩ := hasKind_quaternary.mp hk
    obtain ⟨a', ha', ka'⟩ := ka.simplify
    obtain ⟨b', hb', kb'⟩ := kb.simplify
    obtain ⟨c', hc', kc'⟩ := kc.simplify
    obtain ⟨d', hd', kd'⟩ := kd.simplify
    obtain rfl : quaternary op a' b' c' d' = r := by
      rw [simplify, ha', hb', hc', hd'] at he
      exact Except.ok.inj he
    exact (iha ka hmerge.2.1 hruns.2.1 ha').quaternary (ihb kb hmerge.2.2.1 hruns.2.2.1 hb')
      (ihc kc hmerge.2.2.2.1 hruns.2.2.2.1 hc') (ihd kd hmerge.2.2.2.2 hruns.2.2.2.2 hd') ka kb kc kd
      ka' kb' kc' kd' hr hruns

/-- In a tree that is regular at all nodes, branches are merged safely. -/
theorem mergesSafely_of_regular (hvol : env.WholeVolumes) (hk : e.HasKind k)
    (hreg : e.Everywhere (Regular env)) : e.Everywhere (MergesSafely env) := by
  induction e generalizing k with
  | leaf l => exact fun _ _ _ _ _ h => by cases h
  | unary op a iha =>
    obtain ⟨j, ka, -⟩ := hasKind_unary.mp hk
    exact ⟨fun _ _ _ _ _ h => (by cases h), iha ka hreg.2⟩
  | binary op a b iha ihb =>
    obtain ⟨j, l, ka, kb, -⟩ := hasKind_binary.mp hk
    exact ⟨fun _ _ _ _ _ h => (by cases h), iha ka hreg.2.1, ihb kb hreg.2.2⟩
  | ternary op a b c iha ihb ihc =>
    obtain ⟨j, l, m, ka, kb, kc, -⟩ := hasKind_ternary.mp hk
    have hb := ihb kb hreg.2.2.1
    have hc := ihc kc hreg.2.2.2
    refine ⟨?_, iha ka hreg.2.1, hb, hc⟩
    rintro _ _ _ b' c' ⟨⟩ hb' hc' -
    exact iff_of_true (simplifies_simplify hvol kb hb hreg.2.2.1.reached hb').runs
      (simplifies_simplify hvol kc hc hreg.2.2.2.reached hc').runs
  | quaternary op a b c d iha ihb ihc ihd =>
    obtain ⟨j, l, m, n, ka, kb, kc, kd, -⟩ := hasKind_quaternary.mp hk
    exact ⟨fun _ _ _ _ _ h => (by cases h), iha ka hreg.2.1, ihb kb hreg.2.2.1, ihc kc hreg.2.2.2.1,
      ihd kd hreg.2.2.2.2⟩

/-- Simplification preserves meaning: on a well-typed tree that is regular at all sites it succeeds,
and the simplified tree evaluates to an equal number, or to a value of the same truth. -/
theorem simplify_preserves_value (hk : e.HasKind k) (hvol : env.WholeVolumes)
    (hreg : ∀ site ∈ e.sites, Regular env site.2) :
    ∃ r x y, e.simplify = .ok r ∧ e.evaluate env = .ok x ∧ r.evaluate env = .ok y ∧
      (k.isNumeric = true → (x == y) = true) ∧
      (k = .boolean → Truth.holds x = Truth.holds y) := by
  have heverywhere := everywhere_iff.mpr hreg
  obtain ⟨r, hr, -⟩ := hk.simplify
  have hs := simplifies_simplify hvol hk (mergesSafely_of_regular hvol hk heverywhere)
    heverywhere.reached hr
  obtain ⟨x, hx, -⟩ := hs.agrees.left
  obtain ⟨y, hy, -⟩ := hs.agrees.right
  exact ⟨r, x, y, hr, hx, hy, hs.agrees.meaning hx hy⟩

/-- Twice the held days, divided by them, is two before and after simplification. -/
theorem simplify_preserves_value_held :
    ∃ r x y, (arithmetic .divide (arithmetic .add sampleHeld sampleHeld) sampleHeld).simplify = .ok r ∧
      (arithmetic .divide (arithmetic .add sampleHeld sampleHeld) sampleHeld).evaluate sampleDays =
        .ok x ∧
      r.evaluate sampleDays = .ok y ∧
      (Kind.integer.isNumeric = true → (x == y) = true) ∧
      (Kind.integer = .boolean → Truth.holds x = Truth.holds y) := by
  have hheld : Regular sampleDays sampleHeld := by
    refine ⟨⟨3.0, rfl, by decide +kernel⟩, fun _ h => (by cases h), ?_,
      fun _ _ _ h => (by cases h)⟩
    intro name x hv hx
    cases hx
    exact ⟨by decide +kernel, by decide +kernel⟩
  have hsum : Regular sampleDays (arithmetic .add sampleHeld sampleHeld) :=
    Regular.of_defined ⟨6.0, by decide +kernel, by decide +kernel⟩ (fun _ h => by cases h)
      (fun _ _ h => by cases h)
  have hquot : Regular sampleDays
      (arithmetic .divide (arithmetic .add sampleHeld sampleHeld) sampleHeld) := by
    refine ⟨⟨2.0, by decide +kernel, by decide +kernel⟩, fun _ h => (by cases h),
      fun _ _ h => (by cases h), ?_⟩
    intro a b y hdiv hy
    cases hdiv
    cases hy
    decide +kernel
  exact simplify_preserves_value (k := .integer) (by rfl) (fun _ _ _ _ h => by cases h)
    (everywhere_iff.mp ⟨hquot, ⟨hsum, hheld, hheld⟩, hheld⟩)

end Expr

end TradeRules
