import TradeRules.Proofs.Market.Past
import TradeRules.Proofs.Rule.Evaluate
import TradeRules.Proofs.Rule.Sites

/-!
# Rules that look back

A rule looks back when the offset of each quote function in it is an INTEGER literal that is not
positive (`Expr.LooksBack`).  Such a rule reads no day after the reference day, so sources with the
same past give it the same value, or make it fail in the same way (`Expr.LooksBack.evaluate_eq`).

The nodes that do not read the market data themselves only combine their operands
(`Expr.evaluate_congr`).  Of the others, a quote function reads a window that ends at the offset, or a
single day, and a bare quote and the properties of the date read the reference day itself.
-/

namespace TradeRules

open Double

/-- The start of a computation may be exchanged, and what follows only has to agree on its result. -/
theorem bind_congr_of_ok {α β ε : Type} {x x' : Except ε α} {f g : α → Except ε β} (hx : x = x')
    (hf : ∀ a, x = .ok a → f a = g a) : (x >>= f) = (x' >>= g) := by
  subst hx
  cases x with
  | error e => rfl
  | ok a => exact hf a rfl

/-- The integer part of a double that stands for a number that is not positive. -/
theorem towardZero_nonpos {q : ℚ} (h : q ≤ 0) : towardZero q ≤ 0 := by
  have hneg := towardZero_neg (-q)
  rw [neg_neg] at hneg
  rw [hneg, towardZero, if_pos (by linarith)]
  have hfloor : 0 ≤ ⌊-q⌋ := Int.floor_nonneg.mpr (by linarith)
  omega

/-- A literal that is not positive stands for an offset that is not positive. -/
theorem truncate_ofInt_nonpos {n : ℤ} (hfin : (ofInt n).isFinite = true) (hn : n ≤ 0) :
    truncate (ofInt n) ≤ 0 := by
  rw [truncate_eq hfin, (ofInt_isRounding n).value hfin]
  refine towardZero_nonpos ?_
  rw [← nearest_zero]
  exact nearest_mono (by exact_mod_cast hn)

/-- A quote function reads the source of its environment, or fails for want of a symbol. -/
theorem quotesFor_congr {α : Type} {s s' : Source} {vs : Variables} {symbol : Option Symbol} {day : ℤ}
    {e : Expr} {f g : Source × Symbol → Except EvalError α}
    (hf : ∀ symbol, f (s, symbol) = g (s', symbol)) :
    (Environment.quotesFor ⟨vs, some s, symbol, day⟩ e >>= f) =
      (Environment.quotesFor ⟨vs, some s', symbol, day⟩ e >>= g) := by
  cases symbol with
  | none => rfl
  | some symbol => exact hf symbol

namespace Expr

variable {e : Expr} {env env' : Environment}

/-! ## What evaluation reads -/

/-- Whether a node reads the market data itself. -/
def ReadsMarket : Expr → Prop
  | .leaf (.quote _) | .leaf (.date _) | .binary .lag _ _ | .binary .rsi _ _
  | .ternary (.statistic _) _ _ _ | .ternary (.correlation _) _ _ _ | .quaternary .ema _ _ _ _ => True
  | _ => False

/-- Environments with the same variables give the same value when they do at each node that reads the
market data, given that they do at its operands. -/
theorem evaluate_congr (hbindings : env.bindings = env'.bindings)
    (h : e.Everywhere fun a => a.ReadsMarket →
      (∀ b ∈ a.operands, b.evaluate env = b.evaluate env') → a.evaluate env = a.evaluate env') :
    e.evaluate env = e.evaluate env' := by
  induction e with
  | leaf l =>
    cases l with
    | number | truth => rfl
    | «variable» =>
      rw [evaluate, evaluate, Environment.leaf, Environment.leaf, hbindings]
    | quote | date => exact h trivial nofun
  | unary op a iha =>
    cases op <;> rw [evaluate, evaluate] <;> exact bind_congr_of_ok (iha h.2) fun x _ => rfl
  | binary op a b iha ihb =>
    have ha := iha h.2.1
    have hb := ihb h.2.2
    cases op with
    | arithmetic | comparison | percent =>
      rw [evaluate, evaluate]
      exact bind_congr_of_ok ha fun x _ => bind_congr_of_ok hb fun y _ => rfl
    | connective op =>
      cases op <;> rw [evaluate, evaluate] <;>
        refine bind_congr_of_ok ha fun x _ => ?_ <;>
        split <;> first | rfl | exact bind_congr_of_ok hb fun y _ => rfl
    | lag | rsi => exact h.1 trivial (by simp [operands, ha, hb])
  | ternary op a b c iha ihb ihc =>
    have ha := iha h.2.1
    have hb := ihb h.2.2.1
    have hc := ihc h.2.2.2
    cases op with
    | choice =>
      rw [evaluate, evaluate]
      refine bind_congr_of_ok ha fun x _ => ?_
      rw [hb, hc]
    | statistic | correlation => exact h.1 trivial (by simp [operands, ha, hb, hc])
  | quaternary op a b c d iha ihb ihc ihd =>
    cases op with
    | ema =>
      exact h.1 trivial
        (by simp [operands, iha h.2.1, ihb h.2.2.1, ihc h.2.2.2.1, ihd h.2.2.2.2])

/-! ## Looking back -/

/-- The operand of a quote function that says how far from the reference day it reads. -/
def offset? : Expr → Option Expr
  | .binary .lag _ o => some o
  | .binary .rsi _ o => some o
  | .ternary (.statistic _) _ _ o => some o
  | .ternary (.correlation _) _ _ o => some o
  | .quaternary .ema _ _ o _ => some o
  | _ => none

/-- Whether an expression is an INTEGER literal that is not positive. -/
def IsBackward (e : Expr) : Prop :=
  ∃ n finite, e = .number (.whole n finite) ∧ n ≤ 0

/-- Whether the offset of each quote function is an INTEGER literal that is not positive. -/
def LooksBack (e : Expr) : Prop :=
  e.Everywhere fun a => ∀ o, a.offset? = some o → o.IsBackward

variable {o : Expr} {s s' : Source} {vs : Variables} {symbol : Option Symbol}
  {last day offset : ℤ} {x : Float}

/-- The offset that a literal stands for. -/
theorem IsBackward.offset_nonpos (h : o.IsBackward) {env : Environment}
    (hx : o.evaluate env = .ok x) (hoffset : wholeArgument e x = .ok offset) : offset ≤ 0 := by
  obtain ⟨n, hfin, rfl, hn⟩ := h
  cases hx
  obtain ⟨-, rfl⟩ := wholeArgument_eq_ok.mp hoffset
  exact truncate_ofInt_nonpos hfin hn

/-- A rule that looks back has the same value on sources with the same past. -/
theorem LooksBack.evaluate_eq (h : s.SamePast last s') (hday : day ≤ last)
    (hlast : last ≤ s.lastDay) (hlast' : last ≤ s'.lastDay) (he : e.LooksBack) :
    e.evaluate ⟨vs, some s, symbol, day⟩ = e.evaluate ⟨vs, some s', symbol, day⟩ := by
  refine evaluate_congr rfl (Everywhere.mono (fun a hback hreads hoperands => ?_) he)
  cases a with
  | leaf l =>
    rw [evaluate, evaluate]
    cases l with
    | number | truth | «variable» => rfl
    | quote field =>
      refine quotesFor_congr fun symbol => ?_
      exact congrArg Except.ok (h.single hday le_rfl)
    | date part =>
      refine bind_congr_of_ok ?_ fun _ _ => rfl
      rw [h.date hday]
  | unary op a => exact hreads.elim
  | binary op a b =>
    obtain ⟨ha, hb⟩ : _ ∧ _ := by simpa [operands] using hoperands
    cases op with
    | arithmetic | comparison | percent | connective => exact hreads.elim
    | lag =>
      rw [evaluate, evaluate]
      refine quotesFor_congr fun symbol => ?_
      refine bind_congr_of_ok hb fun y hy => bind_congr_of_ok rfl fun offset hoffset => ?_
      refine bind_congr_of_ok rfl fun field _ => ?_
      rw [h.single hday ((hback b rfl).offset_nonpos hy hoffset)]
    | rsi =>
      rw [evaluate, evaluate]
      refine quotesFor_congr fun symbol => ?_
      refine bind_congr_of_ok ha fun x _ => bind_congr_of_ok rfl fun period _ => ?_
      refine bind_congr_of_ok hb fun y hy => bind_congr_of_ok rfl fun offset hoffset => ?_
      refine bind_congr_of_ok rfl fun _ _ => ?_
      rw [h.window hday ((hback b rfl).offset_nonpos hy hoffset) hlast hlast']
  | ternary op a b c =>
    obtain ⟨-, hb, hc⟩ : _ ∧ _ ∧ _ := by simpa [operands] using hoperands
    cases op with
    | choice => exact hreads.elim
    | statistic =>
      rw [evaluate, evaluate]
      refine quotesFor_congr fun symbol => ?_
      refine bind_congr_of_ok hb fun y _ => bind_congr_of_ok rfl fun period _ => ?_
      refine bind_congr_of_ok hc fun z hz => bind_congr_of_ok rfl fun offset hoffset => ?_
      refine bind_congr_of_ok rfl fun _ _ => bind_congr_of_ok rfl fun field _ => ?_
      rw [h.window hday ((hback c rfl).offset_nonpos hz hoffset) hlast hlast']
    | correlation partner =>
      rw [evaluate, evaluate]
      refine quotesFor_congr fun symbol => bind_congr_of_ok rfl fun other _ => ?_
      refine bind_congr_of_ok hb fun y _ => bind_congr_of_ok rfl fun period _ => ?_
      refine bind_congr_of_ok hc fun z hz => bind_congr_of_ok rfl fun offset hoffset => ?_
      split
      · exact bind_congr_of_ok rfl fun _ hthrow => by cases hthrow
      refine bind_congr_of_ok rfl fun field _ => ?_
      rw [h.pairedWindow hday ((hback c rfl).offset_nonpos hz hoffset) hlast hlast']
  | quaternary op a b c d =>
    obtain ⟨-, hb, hc, hd⟩ : _ ∧ _ ∧ _ ∧ _ := by simpa [operands] using hoperands
    cases op with
    | ema =>
      rw [evaluate, evaluate]
      refine bind_congr_of_ok hd fun w _ => ?_
      split
      · exact bind_congr_of_ok rfl fun _ hthrow => by cases hthrow
      refine quotesFor_congr fun symbol => ?_
      refine bind_congr_of_ok hb fun y _ => bind_congr_of_ok rfl fun period _ => ?_
      refine bind_congr_of_ok hc fun z hz => bind_congr_of_ok rfl fun offset hoffset => ?_
      refine bind_congr_of_ok rfl fun _ _ => bind_congr_of_ok rfl fun field _ => ?_
      rw [h.window hday ((hback c rfl).offset_nonpos hz hoffset) hlast hlast']

end Expr

end TradeRules
