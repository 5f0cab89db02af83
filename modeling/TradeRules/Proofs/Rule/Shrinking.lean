import TradeRules.Proofs.Rule.Simplify

/-!
# Simplification only shrinks

A simplified form is no larger and no deeper than the expression, and it has no more nodes of any sort
that simplification cannot introduce (`simplify_shrinks`).  What it can introduce is literals, products
and comparisons (`Head.IsIntroduced`).  So every variable, every field, every property of the date and every
statistic in the simplified form stands in the expression as well, with the same name or partner and at
least as often.

Size, depth and the number of nodes of a sort are measures of the same kind: each of them makes `Shrinking`
true, which says what the rules need.  The rules are followed once for all of them (`Shrinking.simplify`).
Two rules build a node that was not there.  The sum of two equal expressions becomes a product, where a
literal takes the place of an operand, and a negated comparison becomes another comparison, where the
negation goes away.
-/

namespace TradeRules

/-- Whether simplification may introduce a node: literals, products and comparisons. -/
def Head.IsIntroduced : Head → Prop
  | .leaf (.number _) | .leaf (.truth _) => True
  | .binary (.arithmetic .multiply) | .binary (.comparison _) => True
  | _ => False

namespace Expr

/-! ## The nodes of an expression -/

/-- The nodes of an expression without their operands, a node before its operands. -/
def heads (e : Expr) : List Head :=
  e.sites.map fun site => site.2.head

theorem heads_inOperand (i : Nat) (sites : List (Path × Expr)) :
    ((inOperand i sites).map fun site => site.2.head) = sites.map fun site => site.2.head := by
  simp [inOperand, Function.comp_def]

@[simp] theorem heads_leaf (l : Leaf) : (leaf l).heads = [.leaf l] := rfl

@[simp] theorem heads_unary (op : Unary) (a : Expr) :
    (unary op a).heads = .unary op :: a.heads := by
  simp only [heads, sites, List.map_cons, heads_inOperand]
  rfl

@[simp] theorem heads_binary (op : Binary) (a b : Expr) :
    (binary op a b).heads = .binary op :: (a.heads ++ b.heads) := by
  simp only [heads, sites, List.map_cons, List.map_append, heads_inOperand]
  rfl

@[simp] theorem heads_ternary (op : Ternary) (a b c : Expr) :
    (ternary op a b c).heads = .ternary op :: (a.heads ++ b.heads ++ c.heads) := by
  simp only [heads, sites, List.map_cons, List.map_append, heads_inOperand]
  rfl

@[simp] theorem heads_quaternary (op : Quaternary) (a b c d : Expr) :
    (quaternary op a b c d).heads =
      .quaternary op :: (a.heads ++ b.heads ++ c.heads ++ d.heads) := by
  simp only [heads, sites, List.map_cons, List.map_append, heads_inOperand]
  rfl

theorem size_pos (e : Expr) : 1 ≤ e.size := by
  cases e <;> simp [size]

theorem depth_pos (e : Expr) : 1 ≤ e.depth := by
  cases e <;> simp [depth]

/-! ## Measures -/

/-- What makes a measure one that no rule of simplification increases. -/
structure Shrinking (μ : Expr → ℕ) : Prop where
  /-- Literals are as small as anything. -/
  number : ∀ l e, μ (.number l) ≤ μ e
  /-- So are truth values. -/
  truth : ∀ t e, μ (.truth t) ≤ μ e
  /-- A part is no larger than the whole. -/
  operand : ∀ e, ∀ a ∈ e.operands, μ a ≤ μ e
  /-- Smaller operands make no larger node. -/
  unary : ∀ op {a a'}, μ a' ≤ μ a → μ (.unary op a') ≤ μ (.unary op a)
  binary : ∀ op {a a' b b'}, μ a' ≤ μ a → μ b' ≤ μ b → μ (.binary op a' b') ≤ μ (.binary op a b)
  ternary : ∀ op {a a' b b' c c'}, μ a' ≤ μ a → μ b' ≤ μ b → μ c' ≤ μ c →
    μ (.ternary op a' b' c') ≤ μ (.ternary op a b c)
  quaternary : ∀ op {a a' b b' c c' d d'}, μ a' ≤ μ a → μ b' ≤ μ b → μ c' ≤ μ c → μ d' ≤ μ d →
    μ (.quaternary op a' b' c' d') ≤ μ (.quaternary op a b c d)
  /-- A comparison in the place of another and its negation. -/
  negation : ∀ op op' a b, μ (.comparison op' a b) ≤ μ (.not (.comparison op a b))
  /-- The branches of a choice exchanged, without the negation. -/
  exchange : ∀ c a b, μ (.choice c b a) ≤ μ (.choice (.not c) a b)
  /-- A product with a literal in the place of a sum. -/
  double : ∀ l a b, μ (.arithmetic .multiply (.number l) a) ≤ μ (.arithmetic .add a b)

theorem shrinking_size : Shrinking size where
  number _ e := size_pos e
  truth _ e := size_pos e
  operand e a ha := by
    cases e <;> simp only [operands, List.mem_cons, List.not_mem_nil, or_false] at ha <;>
      simp only [size] <;> grind
  unary op a a' h := by simpa [size] using h
  binary op a a' b b' ha hb := by simp only [size]; omega
  ternary op a a' b b' c c' ha hb hc := by simp only [size]; omega
  quaternary op a a' b b' c c' d d' ha hb hc hd := by simp only [size]; omega
  negation op op' a b := by simp only [size]; omega
  exchange c a b := by simp only [size]; omega
  double l a b := by
    have hb := size_pos b
    simp only [size]
    omega

theorem shrinking_depth : Shrinking depth where
  number _ e := depth_pos e
  truth _ e := depth_pos e
  operand e a ha := by
    cases e <;> simp only [operands, List.mem_cons, List.not_mem_nil, or_false] at ha <;>
      simp only [depth] <;> grind
  unary op a a' h := by simpa [depth] using h
  binary op a a' b b' ha hb := by simp only [depth]; omega
  ternary op a a' b b' c c' ha hb hc := by simp only [depth]; omega
  quaternary op a a' b b' c c' d d' ha hb hc hd := by simp only [depth]; omega
  negation op op' a b := by simp only [depth]; omega
  exchange c a b := by simp only [depth]; omega
  double l a b := by
    have ha := depth_pos a
    simp only [depth]
    omega

/-- The number of nodes of a sort that simplification does not introduce. -/
theorem shrinking_count {h : Head} (hh : ¬h.IsIntroduced) : Shrinking fun e => e.heads.count h := by
  have hne : ∀ h', h'.IsIntroduced → (h' == h) = false := by
    intro h' hintroduced
    rw [beq_eq_false_iff_ne]
    rintro rfl
    exact hh hintroduced
  refine {
    number := fun l e => ?_
    truth := fun t e => ?_
    operand := fun e a ha => ?_
    unary := fun op a a' h => ?_
    binary := fun op a a' b b' ha hb => ?_
    ternary := fun op a a' b b' c c' ha hb hc => ?_
    quaternary := fun op a a' b b' c c' d d' ha hb hc hd => ?_
    negation := fun op op' a b => ?_
    exchange := fun c a b => ?_
    double := fun l a b => ?_ }
  · simp [List.count_cons, hne (.leaf (.number l)) trivial]
  · simp [List.count_cons, hne (.leaf (.truth t)) trivial]
  · cases e <;> simp only [operands, List.mem_cons, List.not_mem_nil, or_false] at ha <;>
      simp only [heads_unary, heads_binary, heads_ternary, heads_quaternary, List.count_cons,
        List.count_append] <;> grind
  all_goals
    simp only [heads_leaf, heads_unary, heads_binary, heads_ternary, heads_quaternary,
      List.count_cons, List.count_append, List.count_nil,
      hne (.binary (.comparison _)) trivial, hne (.leaf (.number _)) trivial,
      hne (.binary (.arithmetic .multiply)) trivial, Bool.false_eq_true, if_false] at *
    omega

/-! ## The rules -/

namespace Shrinking

variable {μ : Expr → ℕ} {a a' b b' c c' e r : Expr}

/-- A folded result is a literal. -/
theorem of_fold (hμ : Shrinking μ) {l : Literal} {x : Float} (h : l.fold x = some r) (e : Expr) :
    μ r ≤ μ e := by
  obtain ⟨m, rfl, -⟩ := Literal.fold_eq_some h
  exact hμ.number m e

theorem getD_fold (hμ : Shrinking μ) (l : Literal) (x : Float) (e : Expr) :
    μ ((l.fold x).getD e) ≤ μ e := by
  cases hf : l.fold x with
  | none => exact le_rfl
  | some r => exact hμ.of_fold hf e

theorem of_smallLike (hμ : Shrinking μ) {n : ℕ} (h : smallLike n a = .ok r) (e : Expr) :
    μ r ≤ μ e := by
  obtain ⟨k, -, h⟩ := bind_eq_ok.mp h
  obtain ⟨l, -, h⟩ := bind_eq_ok.mp h
  cases h
  exact hμ.number l e

theorem left (hμ : Shrinking μ) (op : Binary) (a b : Expr) : μ a ≤ μ (.binary op a b) :=
  hμ.operand _ a List.mem_cons_self

theorem right (hμ : Shrinking μ) (op : Binary) (a b : Expr) : μ b ≤ μ (.binary op a b) :=
  hμ.operand _ b (List.mem_cons_of_mem a List.mem_cons_self)

/-- An identity answers an operand, a literal or the node, and that of `a+a` a product. -/
theorem of_identities (hμ : Shrinking μ) {op : Arithmetic} (h : identities op a b = .ok r) :
    μ r ≤ μ (.arithmetic op a b) := by
  cases op with
  | add =>
    simp only [identities] at h
    split_ifs at h
    · cases h
      exact hμ.left _ _ _
    · cases h
      exact hμ.right _ _ _
    · obtain ⟨two, htwo, h⟩ := bind_eq_ok.mp h
      obtain ⟨k, -, htwo⟩ := bind_eq_ok.mp htwo
      obtain ⟨l, -, htwo⟩ := bind_eq_ok.mp htwo
      cases htwo
      cases h
      exact hμ.double l a b
    · cases h
      exact le_rfl
  | subtract =>
    simp only [identities] at h
    split_ifs at h
    · cases h
      exact hμ.left _ _ _
    · exact hμ.of_smallLike h _
    · cases h
      exact le_rfl
  | multiply =>
    simp only [identities] at h
    split_ifs at h
    · exact hμ.of_smallLike h _
    · cases h
      exact hμ.right _ _ _
    · cases h
      exact hμ.left _ _ _
    · cases h
      exact le_rfl
  | divide =>
    simp only [identities] at h
    split_ifs at h
    · cases h
      exact hμ.left _ _ _
    · exact hμ.of_smallLike h _
    · exact hμ.of_smallLike h _
    · cases h
      exact le_rfl

theorem of_reduceArithmetic (hμ : Shrinking μ) {op : Arithmetic}
    (h : reduceArithmetic op a b = .ok r) : μ r ≤ μ (.arithmetic op a b) := by
  unfold reduceArithmetic at h
  split at h
  · next hf =>
    obtain ⟨_, _, -, -, hfold⟩ := foldArithmetic_eq_some hf
    cases h
    exact hμ.of_fold hfold _
  · exact hμ.of_identities h

theorem reduceComparison (hμ : Shrinking μ) (op : Comparison) (a b : Expr) :
    μ (reduceComparison op a b) ≤ μ (.comparison op a b) := by
  unfold Expr.reduceComparison
  split
  · exact hμ.truth _ _
  · split_ifs
    · exact hμ.truth _ _
    · exact le_rfl

theorem reducePercent (hμ : Shrinking μ) (a b : Expr) :
    μ (reducePercent a b) ≤ μ (.binary .percent a b) := by
  unfold Expr.reducePercent
  split
  · exact hμ.getD_fold _ _ _
  · exact le_rfl

theorem reduceFunction (hμ : Shrinking μ) (op : Unary) (f : Float → Float) (a : Expr) :
    μ (reduceFunction op f a) ≤ μ (.unary op a) := by
  unfold Expr.reduceFunction
  split
  · exact hμ.getD_fold _ _ _
  · exact le_rfl

theorem reduceNot (hμ : Shrinking μ) (a : Expr) : μ (reduceNot a) ≤ μ (.not a) := by
  unfold Expr.reduceNot
  split
  · exact hμ.truth _ _
  · next a =>
    calc μ a ≤ μ (.not a) := hμ.operand _ a List.mem_cons_self
      _ ≤ μ (.not (.not a)) := hμ.operand _ _ List.mem_cons_self
  · next op a b =>
    calc μ (Expr.reduceComparison op.negation a b)
        ≤ μ (.comparison op.negation a b) := hμ.reduceComparison op.negation a b
      _ ≤ μ (.not (.comparison op a b)) := hμ.negation op op.negation a b
  · exact le_rfl

/-- A known operand leaves the other one or a truth value. -/
theorem absorb (hμ : Shrinking μ) (op : Connective) (known : Bool) (h : μ a ≤ μ e) :
    μ (absorb op known a) ≤ μ e := by
  cases op <;> cases known <;> first | exact h | exact hμ.truth _ _

theorem reduceConnective (hμ : Shrinking μ) (op : Connective) (a b : Expr) :
    μ (reduceConnective op a b) ≤ μ (.connective op a b) := by
  unfold Expr.reduceConnective
  split
  · exact hμ.absorb op _ (hμ.right _ _ _)
  · exact hμ.absorb op _ (hμ.left _ _ _)
  · split_ifs
    · exact hμ.left _ _ _
    · exact le_rfl

/-- A choice on a negated condition goes on with the branches exchanged. -/
theorem reduceChoice (hμ : Shrinking μ) (c a b : Expr) :
    μ (reduceChoice c a b) ≤ μ (.choice c a b) := by
  have hthen : ∀ c a b, μ a ≤ μ (.choice c a b) := fun c a b => hμ.operand _ a (by simp [operands])
  have helse : ∀ c a b, μ b ≤ μ (.choice c a b) := fun c a b => hμ.operand _ b (by simp [operands])
  fun_induction Expr.reduceChoice c a b with
  | case1 => exact hthen _ _ _
  | case2 => exact helse _ _ _
  | case3 => exact hthen _ _ _
  | case4 c a b _ ih =>
    calc μ (Expr.reduceChoice c b a) ≤ μ (.choice c b a) := ih
      _ ≤ μ (.choice (.not c) a b) := hμ.exchange c a b
  | case5 => exact hthen _ _ _
  | case6 => exact le_rfl

/-! ## One pass -/

theorem reduceUnary (hμ : Shrinking μ) (op : Unary) (a : Expr) :
    μ (reduceUnary op a) ≤ μ (.unary op a) := by
  cases op with
  | not => exact hμ.reduceNot a
  | sqrt => exact hμ.reduceFunction .sqrt positiveRoot a
  | abs => exact hμ.reduceFunction .abs Float.abs a

theorem of_reduceBinary (hμ : Shrinking μ) {op : Binary} (h : reduceBinary op a b = .ok r) :
    μ r ≤ μ (.binary op a b) := by
  cases op with
  | arithmetic op => exact hμ.of_reduceArithmetic h
  | comparison op =>
    cases h
    exact hμ.reduceComparison op a b
  | connective op =>
    cases h
    exact hμ.reduceConnective op a b
  | percent =>
    cases h
    exact hμ.reducePercent a b
  | lag =>
    cases h
    exact le_rfl
  | rsi =>
    cases h
    exact le_rfl

theorem reduceTernary (hμ : Shrinking μ) (op : Ternary) (a b c : Expr) :
    μ (reduceTernary op a b c) ≤ μ (.ternary op a b c) := by
  cases op with
  | choice => exact hμ.reduceChoice a b c
  | statistic s => exact le_rfl
  | correlation partner => exact le_rfl

/-- The operands are no larger once they are simplified, and then neither is what the rules make of the
node. -/
theorem simplify (hμ : Shrinking μ) (h : e.simplify = .ok r) : μ r ≤ μ e := by
  induction e generalizing r with
  | leaf l =>
    cases h
    exact le_rfl
  | unary op a iha =>
    obtain ⟨a', ha, h⟩ := bind_eq_ok.mp h
    cases h
    calc μ (Expr.reduceUnary op a') ≤ μ (.unary op a') := hμ.reduceUnary op a'
      _ ≤ μ (.unary op a) := hμ.unary op (iha ha)
  | binary op a b iha ihb =>
    obtain ⟨a', ha, h⟩ := bind_eq_ok.mp h
    obtain ⟨b', hb, h⟩ := bind_eq_ok.mp h
    calc μ r ≤ μ (.binary op a' b') := hμ.of_reduceBinary h
      _ ≤ μ (.binary op a b) := hμ.binary op (iha ha) (ihb hb)
  | ternary op a b c iha ihb ihc =>
    obtain ⟨a', ha, h⟩ := bind_eq_ok.mp h
    obtain ⟨b', hb, h⟩ := bind_eq_ok.mp h
    obtain ⟨c', hc, h⟩ := bind_eq_ok.mp h
    cases h
    calc μ (Expr.reduceTernary op a' b' c') ≤ μ (.ternary op a' b' c') :=
          hμ.reduceTernary op a' b' c'
      _ ≤ μ (.ternary op a b c) := hμ.ternary op (iha ha) (ihb hb) (ihc hc)
  | quaternary op a b c d iha ihb ihc ihd =>
    obtain ⟨a', ha, h⟩ := bind_eq_ok.mp h
    obtain ⟨b', hb, h⟩ := bind_eq_ok.mp h
    obtain ⟨c', hc, h⟩ := bind_eq_ok.mp h
    obtain ⟨d', hd, h⟩ := bind_eq_ok.mp h
    cases h
    exact hμ.quaternary op (iha ha) (ihb hb) (ihc hc) (ihd hd)

end Shrinking

variable {e r : Expr} {k : Kind}

/-- A node of the simplified form that simplification does not introduce stands in the expression. -/
theorem mem_heads_of_simplify (h : e.simplify = .ok r) {head : Head} (hhead : ¬head.IsIntroduced)
    (hmem : head ∈ r.heads) : head ∈ e.heads :=
  List.count_pos_iff.mp
    ((List.count_pos_iff.mpr hmem).trans_le ((shrinking_count hhead).simplify h))

/-- The simplified form of a well-typed expression is no larger and no deeper, and each node of it is a
literal, a product or a comparison, or one that the expression has at least as often. -/
theorem simplify_shrinks (h : e.HasKind k) :
    ∃ r, e.simplify = .ok r ∧ r.size ≤ e.size ∧ r.depth ≤ e.depth ∧
      ∀ head : Head, ¬head.IsIntroduced → r.heads.count head ≤ e.heads.count head := by
  obtain ⟨r, hr, -⟩ := h.simplify
  exact ⟨r, hr, shrinking_size.simplify hr, shrinking_depth.simplify hr,
    fun head hhead => (shrinking_count hhead).simplify hr⟩

/-- `if(not(held>2)) {a} else {a+a}`, where `a` is the average over `0+(held+held)` days. -/
def unlessHeldTwice : Expr :=
  .choice
    (.not (.comparison .greater (.leaf (.variable "held" .integer))
      (.number (.whole 2 Double.ofInt_two_isFinite))))
    averageTwiceHeld (.arithmetic .add averageTwiceHeld averageTwiceHeld)

/-- Its simplified form has another comparison, and products that it has not, and is smaller. -/
theorem simplify_shrinks_unless :
    unlessHeldTwice.HasKind .float ∧
      ∃ r, unlessHeldTwice.simplify = .ok r ∧ r.size ≤ unlessHeldTwice.size ∧
        r.depth ≤ unlessHeldTwice.depth ∧
        ∀ head : Head, ¬head.IsIntroduced → r.heads.count head ≤ unlessHeldTwice.heads.count head :=
  ⟨by rfl, simplify_shrinks (by rfl)⟩

end Expr

end TradeRules
