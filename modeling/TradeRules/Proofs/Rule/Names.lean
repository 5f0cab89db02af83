import TradeRules.Proofs.Rule.Shrinking
import TradeRules.Proofs.Rule.Sites

/-!
# The names in an expression

Only two kinds of nodes hold text from outside: a variable its name, and a correlation its partner.  A
`Naming` says which texts are allowed, and an expression is `Named` when all of its texts are.

Simplification brings in no text (`Named.simplify`): the nodes it introduces hold none, and every other
node of the simplified form comes from the expression (`mem_heads_of_simplify`).  A part of a named expression is named,
and stays so with another named one in the place of a site.
-/

namespace TradeRules

/-- Which texts may stand in an expression. -/
structure Naming where
  /-- The names of variables of a kind. -/
  isVariable : String → ValueKind → Prop
  /-- The partners of correlations. -/
  isPartner : String → Prop

/-- Whether the text in a node is allowed. -/
def Head.Named (N : Naming) : Head → Prop
  | .leaf (.variable name kind) => N.isVariable name kind
  | .ternary (.correlation partner) => N.isPartner partner
  | _ => True

namespace Expr

/-- Whether all texts in an expression are allowed. -/
def Named (N : Naming) (e : Expr) : Prop :=
  e.Everywhere fun a => a.head.Named N

variable {N : Naming} {a b c e r : Expr}

theorem Named.mono {M : Naming} (hvar : ∀ name kind, N.isVariable name kind → M.isVariable name kind)
    (hpartner : ∀ partner, N.isPartner partner → M.isPartner partner) (h : e.Named N) :
    e.Named M := by
  refine Everywhere.mono (fun e he => ?_) h
  cases e with
  | leaf l =>
    cases l with
    | «variable» name kind => exact hvar name kind he
    | number l => trivial
    | truth b => trivial
    | quote f => trivial
    | date part => trivial
  | unary op a => trivial
  | binary op a b => trivial
  | ternary op a b c =>
    cases op with
    | correlation partner => exact hpartner partner he
    | choice => trivial
    | statistic s => trivial
  | quaternary op a b c d => trivial

theorem named_number (l : Literal) : (number l).Named N :=
  trivial

theorem named_truth (t : Bool) : (truth t).Named N :=
  trivial

theorem Named.binary {op : Binary} (ha : a.Named N) (hb : b.Named N) : (binary op a b).Named N :=
  ⟨trivial, ha, hb⟩

theorem Named.choice (hc : c.Named N) (ha : a.Named N) (hb : b.Named N) : (choice c a b).Named N :=
  ⟨trivial, hc, ha, hb⟩

/-! ## Parts -/

/-- The operands are named, and any named ones can take their places. -/
theorem named_ofHead? : ∀ {head : Head} {es : List Expr}, ofHead? head es = some e →
    (e.Named N ↔ head.Named N ∧ ∀ a ∈ es, a.Named N)
  | .leaf l, [], h => by
    cases h
    exact ⟨fun h => ⟨h, fun _ ha => by cases ha⟩, fun h => h.1⟩
  | .unary op, [a], h => by
    cases h
    simp [Named, Everywhere, Head.Named, head]
  | .binary op, [a, b], h => by
    cases h
    simp [Named, Everywhere, Head.Named, head]
  | .ternary op, [a, b, c], h => by
    cases h
    simp [Named, Everywhere, head]
  | .quaternary op, [a, b, c, d], h => by
    cases h
    simp [Named, Everywhere, Head.Named, head]

theorem named_iff : e.Named N ↔ e.head.Named N ∧ ∀ a ∈ e.operands, a.Named N :=
  named_ofHead? (ofHead?_head_operands e)

theorem Named.operand {i : Nat} (h : e.Named N) (ha : e.operands[i]? = some a) : a.Named N :=
  (named_iff.mp h).2 a (List.mem_of_getElem? ha)

theorem Named.setOperand (h : e.Named N) (hr : r.Named N) (i : Nat) :
    (e.setOperand i r).Named N := by
  unfold Expr.setOperand
  split <;> simp_all [Named, Everywhere, head, Head.Named]

theorem Named.at? (h : e.Named N) {path : Path} (ha : e.at? path = some a) : a.Named N := by
  induction path generalizing e with
  | nil =>
    cases ha
    exact h
  | cons i rest ih =>
    obtain ⟨b, hb, hrest⟩ := Option.bind_eq_some_iff.mp ha
    exact ih (h.operand hb) hrest

theorem Named.replace? (h : e.Named N) (hr : r.Named N) {path : Path}
    (ha : e.replace? r path = some a) : a.Named N := by
  induction path generalizing e a with
  | nil =>
    cases ha
    exact hr
  | cons i rest ih =>
    obtain ⟨b, hb, hrest⟩ := Option.bind_eq_some_iff.mp ha
    obtain ⟨b', hb', hset⟩ := Option.bind_eq_some_iff.mp hrest
    cases hset
    exact h.setOperand (ih (h.operand hb) hb') i

/-! ## Simplification -/

theorem named_iff_heads : e.Named N ↔ ∀ head ∈ e.heads, head.Named N := by
  rw [heads, List.forall_mem_map]
  exact everywhere_iff

/-- The nodes that simplification introduces hold no text. -/
theorem named_of_isIntroduced : ∀ {head : Head}, head.IsIntroduced → head.Named N
  | .leaf (.number _), _ | .leaf (.truth _), _ => trivial
  | .binary _, _ => trivial

/-- The simplified form has no new texts. -/
theorem Named.simplify (h : e.Named N) (he : e.simplify = .ok r) : r.Named N := by
  rw [named_iff_heads] at h ⊢
  intro head hhead
  by_cases hintroduced : head.IsIntroduced
  · exact named_of_isIntroduced hintroduced
  · exact h head (mem_heads_of_simplify he hintroduced hhead)

end Expr

end TradeRules
