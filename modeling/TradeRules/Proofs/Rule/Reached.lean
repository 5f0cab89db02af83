import TradeRules.Proofs.Rule.Evaluate
import TradeRules.Proofs.Rule.Sites

/-!
# Nodes that evaluation comes to

A connective may be decided by its first operand, and a choice evaluates one of its branches.  The nodes
below the operands left out have no part in the value of a tree.  `Reached env P e` says that `P` holds
of all others.
-/

namespace TradeRules

namespace Expr

variable {env : Environment} {P Q : Expr → Prop} {e : Expr}

/-- Whether a property holds of every node that evaluation comes to. -/
def Reached (env : Environment) (P : Expr → Prop) : Expr → Prop
  | .leaf l => P (.leaf l)
  | .unary op a => P (.unary op a) ∧ a.Reached env P
  | .binary op a b => P (.binary op a b) ∧ a.Reached env P ∧ (a.Opens env op → b.Reached env P)
  | .ternary op a b c =>
    P (.ternary op a b c) ∧ a.Reached env P ∧ (a.Selects env op true → b.Reached env P) ∧
      (a.Selects env op false → c.Reached env P)
  | .quaternary op a b c d =>
    P (.quaternary op a b c d) ∧
      a.Reached env P ∧ b.Reached env P ∧ c.Reached env P ∧ d.Reached env P

/-- Evaluation comes to the root. -/
theorem Reached.root (h : e.Reached env P) : P e := by
  cases e with
  | leaf l => exact h
  | unary op a => exact h.1
  | binary op a b => exact h.1
  | ternary op a b c => exact h.1
  | quaternary op a b c d => exact h.1

theorem Reached.mono (himp : ∀ e, P e → Q e) (h : e.Reached env P) : e.Reached env Q := by
  induction e with
  | leaf l => exact himp _ h
  | unary op a iha => exact ⟨himp _ h.1, iha h.2⟩
  | binary op a b iha ihb => exact ⟨himp _ h.1, iha h.2.1, fun hb => ihb (h.2.2 hb)⟩
  | ternary op a b c iha ihb ihc =>
    exact ⟨himp _ h.1, iha h.2.1, fun hb => ihb (h.2.2.1 hb), fun hc => ihc (h.2.2.2 hc)⟩
  | quaternary op a b c d iha ihb ihc ihd =>
    exact ⟨himp _ h.1, iha h.2.1, ihb h.2.2.1, ihc h.2.2.2.1, ihd h.2.2.2.2⟩

/-- What holds everywhere holds where evaluation comes to. -/
theorem Everywhere.reached (h : e.Everywhere P) : e.Reached env P := by
  induction e with
  | leaf l => exact h
  | unary op a iha => exact ⟨h.1, iha h.2⟩
  | binary op a b iha ihb => exact ⟨h.1, iha h.2.1, fun _ => ihb h.2.2⟩
  | ternary op a b c iha ihb ihc =>
    exact ⟨h.1, iha h.2.1, fun _ => ihb h.2.2.1, fun _ => ihc h.2.2.2⟩
  | quaternary op a b c d iha ihb ihc ihd =>
    exact ⟨h.1, iha h.2.1, ihb h.2.2.1, ihc h.2.2.2.1, ihd h.2.2.2.2⟩

end Expr

end TradeRules
