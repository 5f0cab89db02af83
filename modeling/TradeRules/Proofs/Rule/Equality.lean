import TradeRules.Proofs.Rule.Operation
import TradeRules.Proofs.Rule.Typing
import TradeRules.Rule.Equality

/-!
# Trees rearranged

`Rearranged swaps a b` says that `a` becomes `b` by exchanging the operands of operations that
`swaps` allows, at any depth.  With all commutative operations allowed this is `Equal`, the equality
by which trees are simplified (`same_iff`).  Proofs about equal trees are by induction on how one is
made of the other.

Being rearranged is an equivalence (`Rearranged.refl`, `Rearranged.symm`, `Rearranged.trans`), and
rearranged trees have the same kind (`Rearranged.hasKind`).
-/

namespace TradeRules

open Double

/-! ## Leaves -/

namespace Literal

variable {m n : Literal}

theorem alike_of_same (h : m.same n = true) :
    m.kind = n.kind ∧ Alike m.toDouble n.toDouble := by
  cases m with
  | whole m hm =>
    cases n with
    | whole n hn =>
      obtain rfl : m = n := by simpa [Literal.same] using h
      exact ⟨rfl, Alike.refl hm⟩
    | real y hy => cases h
  | real x hx =>
    cases n with
    | whole n hn => cases h
    | real y hy => exact ⟨rfl, hx, hy, (beq_iff_exact hx hy).mp h⟩

theorem same_symm (h : m.same n = true) : n.same m = true := by
  cases m with
  | whole m hm =>
    cases n with
    | whole n hn => exact beq_iff_eq.mpr (beq_iff_eq.mp h).symm
    | real y hy => cases h
  | real x hx =>
    cases n with
    | whole n hn => cases h
    | real y hy => exact (beq_iff_exact hy hx).mpr ((beq_iff_exact hx hy).mp h).symm

theorem same_refl (m : Literal) : m.same m = true := by
  cases m with
  | whole m hm => exact beq_iff_eq.mpr rfl
  | real x hx => exact (beq_iff_exact hx hx).mpr rfl

theorem same_trans {l : Literal} (h : m.same n = true) (h' : n.same l = true) :
    m.same l = true := by
  cases m with
  | whole m hm =>
    cases n with
    | whole n hn =>
      obtain rfl : m = n := by simpa [Literal.same] using h
      exact h'
    | real y hy => cases h
  | real x hx =>
    cases n with
    | whole n hn => cases h
    | real y hy =>
      cases l with
      | whole l hl => cases h'
      | real z hz =>
        exact (beq_iff_exact hx hz).mpr
          (((beq_iff_exact hx hy).mp h).trans ((beq_iff_exact hy hz).mp h'))

end Literal

namespace Leaf

variable {s t : Leaf}

/-- Leaves that are the same are equal, or literals with alike values. -/
theorem eq_or_number_of_same (h : s.same t = true) :
    s = t ∨ ∃ m n, s = .number m ∧ t = .number n ∧ m.same n = true := by
  unfold Leaf.same at h
  split at h
  · exact .inr ⟨_, _, rfl, rfl, h⟩
  · exact .inl (by simpa using h)

theorem same_symm (h : s.same t = true) : t.same s = true := by
  rcases eq_or_number_of_same h with rfl | ⟨m, n, rfl, rfl, hmn⟩
  · exact h
  · exact Literal.same_symm hmn

theorem same_refl : ∀ s : Leaf, s.same s = true
  | .number l => Literal.same_refl l
  | .truth _ | .variable .. | .quote _ | .date _ => beq_self_eq_true _

theorem same_trans {u : Leaf} (h : s.same t = true) (h' : t.same u = true) : s.same u = true := by
  rcases eq_or_number_of_same h with rfl | ⟨l, m, rfl, rfl, hlm⟩
  · exact h'
  rcases eq_or_number_of_same h' with rfl | ⟨m', n, hm, rfl, hmn⟩
  · exact h
  · cases hm
    exact Literal.same_trans hlm hmn

theorem kind_of_same (h : s.same t = true) : s.kind = t.kind := by
  rcases eq_or_number_of_same h with rfl | ⟨m, n, rfl, rfl, hmn⟩
  · rfl
  · exact (Literal.alike_of_same hmn).1

end Leaf

/-- The operands of a commutative operation can be exchanged in a well-typed tree. -/
theorem Binary.rule_comm {op : Binary} {j k l : Kind} (hop : op.commutative = true)
    (h : op.rule j k = .ok l) : op.rule k j = .ok l := by
  cases op with
  | arithmetic op =>
    obtain ⟨rfl, -, -⟩ := rule_arithmetic.mp h
    exact h
  | comparison op =>
    obtain ⟨rfl, -, -⟩ := rule_comparison.mp h
    exact h
  | connective op =>
    obtain ⟨rfl, rfl, -⟩ := rule_connective.mp h
    exact h
  | percent | lag | rsi => cases hop

namespace Expr

/-! ## Trees -/

/-- Whether one tree becomes another by exchanging the operands of some operations.  Literals are
compared as numbers. -/
inductive Rearranged (swaps : Binary → Prop) : Expr → Expr → Prop
  | leaf {s t : Leaf} (h : s.same t = true) : Rearranged swaps (.leaf s) (.leaf t)
  | unary (op : Unary) {a a' : Expr} (ha : Rearranged swaps a a') :
      Rearranged swaps (.unary op a) (.unary op a')
  | binary (op : Binary) {a a' b b' : Expr} (ha : Rearranged swaps a a')
      (hb : Rearranged swaps b b') : Rearranged swaps (.binary op a b) (.binary op a' b')
  | exchange {op : Binary} {a a' b b' : Expr} (hop : swaps op) (ha : Rearranged swaps a b')
      (hb : Rearranged swaps b a') : Rearranged swaps (.binary op a b) (.binary op a' b')
  | ternary (op : Ternary) {a a' b b' c c' : Expr} (ha : Rearranged swaps a a')
      (hb : Rearranged swaps b b') (hc : Rearranged swaps c c') :
      Rearranged swaps (.ternary op a b c) (.ternary op a' b' c')
  | quaternary (op : Quaternary) {a a' b b' c c' d d' : Expr} (ha : Rearranged swaps a a')
      (hb : Rearranged swaps b b') (hc : Rearranged swaps c c') (hd : Rearranged swaps d d') :
      Rearranged swaps (.quaternary op a b c d) (.quaternary op a' b' c' d')

/-- Whether two trees are the same up to the order of operands. -/
abbrev Equal (a b : Expr) : Prop :=
  Rearranged (·.commutative = true) a b

variable {swaps : Binary → Prop} {a b : Expr} {k : Kind}

theorem Rearranged.symm (h : Rearranged swaps a b) : Rearranged swaps b a := by
  induction h with
  | leaf h => exact .leaf (Leaf.same_symm h)
  | unary op _ iha => exact .unary op iha
  | binary op _ _ iha ihb => exact .binary op iha ihb
  | exchange hop _ _ iha ihb => exact .exchange hop ihb iha
  | ternary op _ _ _ iha ihb ihc => exact .ternary op iha ihb ihc
  | quaternary op _ _ _ _ iha ihb ihc ihd => exact .quaternary op iha ihb ihc ihd

theorem Rearranged.refl (a : Expr) : Rearranged swaps a a := by
  induction a with
  | leaf s => exact .leaf (Leaf.same_refl s)
  | unary op a iha => exact .unary op iha
  | binary op a b iha ihb => exact .binary op iha ihb
  | ternary op a b c iha ihb ihc => exact .ternary op iha ihb ihc
  | quaternary op a b c d iha ihb ihc ihd => exact .quaternary op iha ihb ihc ihd

/-- Of two exchanges in a row, each can cancel the other. -/
theorem Rearranged.trans {c : Expr} (h : Rearranged swaps a b) (h' : Rearranged swaps b c) :
    Rearranged swaps a c := by
  induction h generalizing c with
  | leaf h =>
    cases h' with
    | leaf h' => exact .leaf (Leaf.same_trans h h')
  | unary op _ iha =>
    cases h' with
    | unary _ ha => exact .unary op (iha ha)
  | binary op _ _ iha ihb =>
    cases h' with
    | binary _ ha hb => exact .binary op (iha ha) (ihb hb)
    | exchange hop ha hb => exact .exchange hop (iha ha) (ihb hb)
  | exchange hop _ _ iha ihb =>
    cases h' with
    | binary op ha hb => exact .exchange hop (iha hb) (ihb ha)
    | exchange _ ha hb => exact .binary _ (iha hb) (ihb ha)
  | ternary op _ _ _ iha ihb ihc =>
    cases h' with
    | ternary _ ha hb hc => exact .ternary op (iha ha) (ihb hb) (ihc hc)
  | quaternary op _ _ _ _ iha ihb ihc ihd =>
    cases h' with
    | quaternary _ ha hb hc hd => exact .quaternary op (iha ha) (ihb hb) (ihc hc) (ihd hd)

theorem rearranged_of_same : ∀ {a b : Expr}, a.same b = true →
    Rearranged (·.commutative = true) a b := by
  intro a
  induction a with
  | leaf s =>
    intro b h
    cases b with
    | leaf t => exact .leaf h
    | unary | binary | ternary | quaternary => cases h
  | unary op x ihx =>
    intro b h
    cases b with
    | unary op' x' =>
      simp only [same, Bool.and_eq_true, beq_iff_eq] at h
      obtain ⟨rfl, hx⟩ := h
      exact .unary op (ihx hx)
    | leaf | binary | ternary | quaternary => cases h
  | binary op x y ihx ihy =>
    intro b h
    cases b with
    | binary op' x' y' =>
      simp only [same, Bool.and_eq_true, Bool.or_eq_true, beq_iff_eq] at h
      obtain ⟨rfl, ⟨hx, hy⟩ | ⟨hop, hx, hy⟩⟩ := h
      · exact .binary op (ihx hx) (ihy hy)
      · exact .exchange hop (ihx hx) (ihy hy)
    | leaf | unary | ternary | quaternary => cases h
  | ternary op x y z ihx ihy ihz =>
    intro b h
    cases b with
    | ternary op' x' y' z' =>
      simp only [same, Bool.and_eq_true, beq_iff_eq] at h
      obtain ⟨rfl, ⟨hx, hy⟩, hz⟩ := h
      exact .ternary op (ihx hx) (ihy hy) (ihz hz)
    | leaf | unary | binary | quaternary => cases h
  | quaternary op x y z w ihx ihy ihz ihw =>
    intro b h
    cases b with
    | quaternary op' x' y' z' w' =>
      simp only [same, Bool.and_eq_true, beq_iff_eq] at h
      obtain ⟨-, ⟨⟨hx, hy⟩, hz⟩, hw⟩ := h
      cases op
      cases op'
      exact .quaternary .ema (ihx hx) (ihy hy) (ihz hz) (ihw hw)
    | leaf | unary | binary | ternary => cases h

/-- Trees are the same when exchanging operands of commutative operations makes one of the other. -/
theorem same_iff : a.same b = true ↔ Rearranged (·.commutative = true) a b := by
  refine ⟨rearranged_of_same, fun h => ?_⟩
  induction h with
  | leaf h => exact h
  | unary op _ iha => simp [same, iha]
  | binary op _ _ iha ihb => simp [same, iha, ihb]
  | exchange hop _ _ iha ihb => simp [same, hop, iha, ihb]
  | ternary op _ _ _ iha ihb ihc => simp [same, iha, ihb, ihc]
  | quaternary op _ _ _ _ iha ihb ihc ihd => simp [same, iha, ihb, ihc, ihd]

theorem same_symm (h : a.same b = true) : b.same a = true :=
  same_iff.mpr (same_iff.mp h).symm

theorem same_refl (a : Expr) : a.same a = true :=
  same_iff.mpr (.refl a)

theorem same_trans {c : Expr} (h : a.same b = true) (h' : b.same c = true) : a.same c = true :=
  same_iff.mpr ((same_iff.mp h).trans (same_iff.mp h'))

theorem same_comm (a b : Expr) : a.same b = b.same a :=
  Bool.eq_iff_iff.mpr ⟨same_symm, same_symm⟩

/-- Only a literal is the same as a literal. -/
theorem number_of_same {m : Literal} (h : (number m).same b = true) :
    ∃ n, b = .number n ∧ m.same n = true := by
  cases b with
  | leaf t =>
    cases t with
    | number n => exact ⟨n, rfl, h⟩
    | truth | «variable» | quote | date => exact absurd (beq_iff_eq.mp h) nofun
  | unary | binary | ternary | quaternary => cases h

/-- Rearranged trees have the same kind. -/
theorem Rearranged.hasKind (hswaps : ∀ op, swaps op → op.commutative = true)
    (h : Rearranged swaps a b) (ha : a.HasKind k) : b.HasKind k := by
  induction h generalizing k with
  | leaf h => exact hasKind_leaf.mpr (Leaf.kind_of_same h ▸ hasKind_leaf.mp ha)
  | unary op _ iha =>
    obtain ⟨j, ka, hr⟩ := hasKind_unary.mp ha
    exact hasKind_unary.mpr ⟨j, iha ka, hr⟩
  | binary op _ _ iha ihb =>
    obtain ⟨j, l, ka, kb, hr⟩ := hasKind_binary.mp ha
    exact hasKind_binary.mpr ⟨j, l, iha ka, ihb kb, hr⟩
  | exchange hop _ _ iha ihb =>
    obtain ⟨j, l, ka, kb, hr⟩ := hasKind_binary.mp ha
    exact hasKind_binary.mpr ⟨l, j, ihb kb, iha ka, Binary.rule_comm (hswaps _ hop) hr⟩
  | ternary op _ _ _ iha ihb ihc =>
    obtain ⟨j, l, m, ka, kb, kc, hr⟩ := hasKind_ternary.mp ha
    exact hasKind_ternary.mpr ⟨j, l, m, iha ka, ihb kb, ihc kc, hr⟩
  | quaternary op _ _ _ _ iha ihb ihc ihd =>
    obtain ⟨j, l, m, n, ka, kb, kc, kd, hr⟩ := hasKind_quaternary.mp ha
    exact hasKind_quaternary.mpr ⟨j, l, m, n, iha ka, ihb kb, ihc kc, ihd kd, hr⟩

end Expr

end TradeRules
