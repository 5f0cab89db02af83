import TradeRules.Breeding.Cross
import TradeRules.Breeding.Pool

/-!
# The breeding programme

A programme breeds strategies generation after generation.  Candidates of the first generation are
random, and those of later ones are children of the survivors.  A candidate that is valid is scored
by a backtester.  Scored strategies compete for a place in the pool that the next generation is bred
from, where only those are kept that made a profit.

The backtester is any function that scores rules and may change a state of its own.  Rules that it
cannot evaluate are discarded.  `Programme.nextStrategy` tries a limited number of candidates, and
its failures leave both pools and the generation as they are.
-/

namespace TradeRules

/-- What scores rules, with a state of its own. -/
abbrev Backtester (σ : Type) : Type :=
  Rules → σ → Except TradeError Float × σ

/-- Why a programme stops. -/
inductive ProgrammeError where
  /-- No candidate could be scored in this number of attempts. -/
  | exhausted (attempts : Int) (generation : Nat)
  | breed (e : BreedError)
  | trade (e : TradeError)
deriving DecidableEq

/-- The message of an exhausted programme. -/
def ProgrammeError.exhaustedMessage (attempts : Int) (generation : Nat) : String :=
  "No valid individual in " ++ toString attempts ++ " attempts (generation "
    ++ toString generation ++ ")"

/-- A programme. -/
structure Programme (σ : Type) where
  /-- How strategies are bred. -/
  settings : BreedingSettings
  /-- The value that a strategy has to exceed to be kept. -/
  capital : Float
  /-- The generators of rules. -/
  generators : Generators
  /-- What scores rules. -/
  backtester : Backtester σ

/-- Where a programme stands. -/
structure Stage (σ : Type) where
  /-- The random numbers. -/
  draws : Draws
  /-- The state of the backtester. -/
  testing : σ
  /-- The parents of the current generation. -/
  parents : Pool
  /-- The sum of their values. -/
  parentTotal : Float
  /-- The survivors so far. -/
  survivors : Pool
  /-- The number of the generation. -/
  generation : Nat

/-- What is known of a finished generation. -/
structure GenerationReport where
  /-- The number of the generation. -/
  generation : Nat
  /-- The number of survivors. -/
  survivors : Nat
  /-- The greatest value. -/
  best : Option Float

/-- Whether rules could not be evaluated, which is no fault of the backtester. -/
def TradeError.isEvaluation : TradeError → Bool
  | .evaluation (.unkinded _) => false
  | .evaluation _ => true
  | .order _ => false

namespace Programme

variable {σ : Type}

/-- A programme whose buy rules never read how long a stock has been held, since they are only
evaluated when it is not. -/
def make (settings : BreedingSettings) (weights : Weights) (capital : Float) (allowOrder : Bool)
    (symbols : List Symbol) (backtester : Backtester σ) : Programme σ :=
  let buy : Generator := { weights, settings, allowOrder, symbols }
  { settings, capital, generators := { buy, sell := { buy with allowHeld := true } }, backtester }

/-- The first stage. -/
def start (p : Programme σ) (draws : Draws) (testing : σ) : Stage σ :=
  let pool : Pool := { maxSize := p.settings.populationSize }
  { draws, testing, parents := pool, parentTotal := 0.0, survivors := pool, generation := 1 }

/-! ## Candidates -/

/-- A parent drawn in proportion to the values. -/
def parent (s : Stage σ) : Draw (Option Strategy) := do
  return s.parents.select ((← Draw.unit) * s.parentTotal)

/-- A new candidate: random in the first generation or without parents, a child else. -/
def candidate (p : Programme σ) (s : Stage σ) : Draw Strategy := do
  if s.generation = 1 || s.parents.size = 0 then Strategy.random p.generators
  else
    let mother ← parent s
    let father ← parent s
    match father, mother with
    | some father, some mother => Strategy.breed p.generators p.settings father mother
    | _, _ => Strategy.random p.generators

/-- The survivors after a scored strategy has competed for a place among them.  It needs a profit.
Of two strategies of one value the smaller stays, and of a full pool the weakest goes. -/
def compete (p : Programme σ) (survivors : Pool) (s : Strategy) (value : Float) : Pool :=
  if value ≤ p.capital then survivors
  else
    match survivors.get? value with
    | some other => if s.size < other.size then survivors.insert value s else survivors
    | none =>
      if !survivors.isFull then survivors.insert value s
      else
        match survivors.weakestValue with
        | some weakest =>
          if weakest < value then (survivors.erase weakest).insert value s else survivors
        | none => survivors

/-- Whether a candidate may be scored. -/
def accepts (p : Programme σ) (s : Strategy) : Bool :=
  s.isValid p.settings.minDepth p.settings.maxDepth p.settings.requireBuyQuote

/-- The first candidate that can be scored, with its score, and the stage then, in a number of
attempts. -/
def attempt (p : Programme σ) : Nat → Stage σ → Except ProgrammeError Strategy × Stage σ
  | 0, s => (.error (.exhausted p.settings.maxAttempts s.generation), s)
  | attempts + 1, s =>
    match (p.candidate s).run.run s.draws with
    | (.error e, draws) => (.error (.breed e), { s with draws })
    | (.ok c, draws) =>
      if p.accepts c then
        match p.backtester c.rules s.testing with
        | (.ok value, testing) =>
          let c := c.scored value
          (.ok c, { s with draws, testing, survivors := p.compete s.survivors c value })
        | (.error e, testing) =>
          if e.isEvaluation then p.attempt attempts { s with draws, testing }
          else (.error (.trade e), { s with draws, testing })
      else p.attempt attempts { s with draws }

/-- A new scored strategy, entered into the competition. -/
def nextStrategy (p : Programme σ) (s : Stage σ) : Except ProgrammeError Strategy × Stage σ :=
  p.attempt p.settings.maxAttempts.toNat s

/-! ## Generations -/

/-- The stage at which the survivors are the parents.  They stay in the competition. -/
def nextGeneration (s : Stage σ) : Stage σ :=
  { s with
    parents := s.survivors
    parentTotal := s.survivors.total
    generation := s.generation + 1 }

/-- The stage after a number of strategies, and why the programme stopped if it did. -/
def strategies (p : Programme σ) : Nat → Stage σ → Option ProgrammeError × Stage σ
  | 0, s => (none, s)
  | count + 1, s =>
    match p.nextStrategy s with
    | (.ok _, s) => p.strategies count s
    | (.error e, s) => (some e, s)

/-- The report of a generation at its end. -/
def report (s : Stage σ) : GenerationReport :=
  { generation := s.generation
    survivors := s.survivors.size
    best := s.survivors.fittest.bind Strategy.value }

/-- What a run comes to: a report of each finished generation, the fittest strategy if any was
kept, or why the programme stopped, and the last stage. -/
structure Outcome (σ : Type) where
  /-- The finished generations. -/
  reports : List GenerationReport
  /-- The fittest strategy. -/
  result : Except ProgrammeError (Option Strategy)
  /-- The last stage. -/
  stage : Stage σ

/-- A run of some generations, each with a number of strategies. -/
def run (p : Programme σ) (individuals : Nat) : Nat → Stage σ → Outcome σ
  | 0, s => { reports := [], result := .ok s.survivors.fittest, stage := s }
  | generations + 1, s =>
    match p.strategies individuals s with
    | (some e, s) => { reports := [], result := .error e, stage := s }
    | (none, s) =>
      let rest := p.run individuals generations (nextGeneration s)
      { rest with reports := report s :: rest.reports }

end Programme

end TradeRules
