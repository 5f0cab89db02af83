import Mathlib.Tactic.Common
import TradeRules.Rule.Path

/-!
# Properties of all nodes

`Everywhere P e` says that `P` holds of every node of a tree.  It follows the tree, so proofs by
induction over a tree take it apart, and it is the same as `P` at all sites (`everywhere_iff`).  The sites
are the paths in the tree with what is found there (`mem_sites_iff`).
-/

namespace TradeRules

namespace Expr

variable {P Q : Expr → Prop} {e : Expr}

/-- Induction on the operands of a node, however many it has. -/
theorem operand_induction (step : ∀ e, (∀ a ∈ e.operands, P a) → P e) (e : Expr) : P e := by
  induction e with
  | leaf l => exact step _ (by simp [operands])
  | unary op a iha => exact step _ (by simp [operands, iha])
  | binary op a b iha ihb => exact step _ (by simp [operands, iha, ihb])
  | ternary op a b c iha ihb ihc => exact step _ (by simp [operands, iha, ihb, ihc])
  | quaternary op a b c d iha ihb ihc ihd =>
    exact step _ (by simp [operands, iha, ihb, ihc, ihd])

/-- Whether a property holds of every node. -/
def Everywhere (P : Expr → Prop) : Expr → Prop
  | .leaf l => P (.leaf l)
  | .unary op a => P (.unary op a) ∧ a.Everywhere P
  | .binary op a b => P (.binary op a b) ∧ a.Everywhere P ∧ b.Everywhere P
  | .ternary op a b c =>
    P (.ternary op a b c) ∧ a.Everywhere P ∧ b.Everywhere P ∧ c.Everywhere P
  | .quaternary op a b c d =>
    P (.quaternary op a b c d) ∧
      a.Everywhere P ∧ b.Everywhere P ∧ c.Everywhere P ∧ d.Everywhere P

/-- What holds everywhere holds at the root. -/
theorem Everywhere.root (h : e.Everywhere P) : P e := by
  cases e with
  | leaf l => exact h
  | unary op a => exact h.1
  | binary op a b => exact h.1
  | ternary op a b c => exact h.1
  | quaternary op a b c d => exact h.1

theorem Everywhere.mono (himp : ∀ e, P e → Q e) (h : e.Everywhere P) : e.Everywhere Q := by
  induction e with
  | leaf l => exact himp _ h
  | unary op a iha => exact ⟨himp _ h.1, iha h.2⟩
  | binary op a b iha ihb => exact ⟨himp _ h.1, iha h.2.1, ihb h.2.2⟩
  | ternary op a b c iha ihb ihc => exact ⟨himp _ h.1, iha h.2.1, ihb h.2.2.1, ihc h.2.2.2⟩
  | quaternary op a b c d iha ihb ihc ihd =>
    exact ⟨himp _ h.1, iha h.2.1, ihb h.2.2.1, ihc h.2.2.2.1, ihd h.2.2.2.2⟩

/-- What holds everywhere in a tree holds everywhere in its subtrees. -/
theorem Everywhere.below (h : e.Everywhere P) : e.Everywhere (Everywhere P) := by
  induction e with
  | leaf l => exact h
  | unary op a iha => exact ⟨h, iha h.2⟩
  | binary op a b iha ihb => exact ⟨h, iha h.2.1, ihb h.2.2⟩
  | ternary op a b c iha ihb ihc => exact ⟨h, iha h.2.1, ihb h.2.2.1, ihc h.2.2.2⟩
  | quaternary op a b c d iha ihb ihc ihd =>
    exact ⟨h, iha h.2.1, ihb h.2.2.1, ihc h.2.2.2.1, ihd h.2.2.2.2⟩

theorem forall_inOperand {i : Nat} {sites : List (Path × Expr)} :
    (∀ site ∈ inOperand i sites, P site.2) ↔ ∀ site ∈ sites, P site.2 := by
  rw [inOperand, List.forall_mem_map]

/-- What holds everywhere holds at all sites. -/
theorem everywhere_iff : e.Everywhere P ↔ ∀ site ∈ e.sites, P site.2 := by
  induction e with
  | leaf l => simp [Everywhere, sites]
  | unary op a iha =>
    rw [Everywhere, sites, List.forall_mem_cons, forall_inOperand, iha]
  | binary op a b iha ihb =>
    rw [Everywhere, sites, List.forall_mem_cons, List.forall_mem_append, forall_inOperand,
      forall_inOperand, iha, ihb]
  | ternary op a b c iha ihb ihc =>
    rw [Everywhere, sites, List.forall_mem_cons, List.forall_mem_append, List.forall_mem_append,
      forall_inOperand, forall_inOperand, forall_inOperand, iha, ihb, ihc, and_assoc]
  | quaternary op a b c d iha ihb ihc ihd =>
    rw [Everywhere, sites, List.forall_mem_cons, List.forall_mem_append, List.forall_mem_append,
      List.forall_mem_append, forall_inOperand, forall_inOperand, forall_inOperand,
      forall_inOperand, iha, ihb, ihc, ihd, and_assoc, and_assoc]

/-! ## Sites and paths -/

variable {a : Expr} {i : Nat} {path : Path}

/-- The sites of a tree are its root and those of its operands. -/
theorem sites_eq (e : Expr) :
    e.sites = ([], e) :: e.operands.zipIdx.flatMap fun entry => inOperand entry.2 entry.1.sites := by
  cases e <;> simp [sites, operands]

theorem nil_mem_sites : ([], a) ∈ e.sites ↔ e = a := by
  rw [sites_eq]
  simp [inOperand, eq_comm]

theorem cons_mem_inOperand {j : Nat} {rest : Path} {sites : List (Path × Expr)} :
    (j :: rest, a) ∈ inOperand i sites ↔ i = j ∧ (rest, a) ∈ sites := by
  simp [inOperand, and_comm]

theorem cons_mem_sites {rest : Path} :
    (i :: rest, a) ∈ e.sites ↔ ∃ b, e.operands[i]? = some b ∧ (rest, a) ∈ b.sites := by
  rw [sites_eq]
  simp [cons_mem_inOperand, List.mem_zipIdx_iff_getElem?]

/-- The sites of a tree are the paths in it, with what is found there. -/
theorem mem_sites_iff : (path, a) ∈ e.sites ↔ e.at? path = some a := by
  induction path generalizing e with
  | nil => rw [nil_mem_sites, at?, Option.some.injEq]
  | cons i rest ih => simp only [cons_mem_sites, at?, Option.bind_eq_some_iff, ih]

theorem at?_of_mem_sites (h : (path, a) ∈ e.sites) : e.at? path = some a :=
  mem_sites_iff.mp h

/-- A site is an operand of the site one step before. -/
theorem at?_append_singleton (e : Expr) (path : Path) (i : Nat) :
    e.at? (path ++ [i]) = (e.at? path).bind fun a => a.operands[i]? := by
  induction path generalizing e with
  | nil =>
    simp only [List.nil_append, at?, Option.bind_some]
    cases e.operands[i]? <;> rfl
  | cons j rest ih =>
    simp only [List.cons_append, at?]
    cases e.operands[j]? with
    | none => rfl
    | some a => exact ih a

end Expr

end TradeRules
