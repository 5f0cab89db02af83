import TradeRules.Breeding.Weights
import TradeRules.Number.Double

/-!
# Settings of breeding

How rules are generated, mutated and bred, and how many are kept.  `BreedingSettings.validate`
accepts the settings that breeding can work with, or names the first that it cannot.
-/

namespace TradeRules

/-- The settings of breeding. -/
structure BreedingSettings where
  /-- The most strategies kept for breeding. -/
  populationSize : Int := 10
  /-- The least depth of a rule. -/
  minDepth : Int := 2
  /-- The greatest depth of a rule. -/
  maxDepth : Int := 10
  /-- Whether a buy rule has to read a quote. -/
  requireBuyQuote : Bool := true
  /-- The weights of the ways to breed. -/
  breedWeights : WeightTable :=
    [("clone", 10), ("swap", 5), ("recombine", 35), ("swap_and_recombine", 40),
      ("double_recombine", 10)]
  /-- The chance in percent that a bred rule is mutated. -/
  mutationPercent : Int := 10
  /-- The chance in percent of each further mutation. -/
  extraMutationPercent : Int := 10
  /-- The weight of insertions among mutations. -/
  insertionWeight : Int := 10
  /-- The weight of deletions among mutations. -/
  deletionWeight : Int := 20
  /-- The weight of modifications among mutations. -/
  modificationWeight : Int := 70
  /-- The last level at which operations are generated. -/
  maxLevel : Int := 8
  /-- The most candidates tried for one strategy. -/
  maxAttempts : Int := 1000
  /-- Where the random numbers start. -/
  seed : Option Int := none

namespace BreedingSettings

/-- Why breeding cannot work with settings. -/
inductive Invalid where
  | populationSize
  | depthBand
  | maxLevel
  | maxAttempts
  | mutationPercent
  | extraMutationPercent
deriving DecidableEq, Repr

/-- The message for invalid settings. -/
def Invalid.message : Invalid → String
  | .populationSize => "population_size must be at least 1"
  | .depthBand => "Depth band must satisfy 1 <= min_depth <= max_depth"
  | .maxLevel => "max_level must be at least 1"
  | .maxAttempts => "max_attempts must be at least 1"
  | .mutationPercent => "mutation_percent must lie in [0, 100]"
  | .extraMutationPercent => "extra_mutation_percent must lie in [0, 100]"

/-- What settings have to satisfy, in the order in which it is looked at. -/
def requirements (s : BreedingSettings) : List (Bool × Invalid) :=
  [(1 ≤ s.populationSize, .populationSize),
    (1 ≤ s.minDepth ∧ s.minDepth ≤ s.maxDepth, .depthBand),
    (1 ≤ s.maxLevel, .maxLevel),
    (1 ≤ s.maxAttempts, .maxAttempts),
    (0 ≤ s.mutationPercent ∧ s.mutationPercent ≤ 100, .mutationPercent),
    (0 ≤ s.extraMutationPercent ∧ s.extraMutationPercent ≤ 100, .extraMutationPercent)]

/-- The settings, if breeding can work with them. -/
def validate (s : BreedingSettings) : Except Invalid BreedingSettings :=
  match s.requirements.find? fun requirement => !requirement.1 with
  | some requirement => .error requirement.2
  | none => .ok s

/-- Settings that are accepted satisfy all requirements. -/
theorem requirements_of_validate {s t : BreedingSettings} (h : s.validate = .ok t) :
    ∀ requirement ∈ s.requirements, requirement.1 = true := by
  unfold validate at h
  split at h
  · cases h
  · next hnone =>
    intro requirement hmem
    simpa using List.find?_eq_none.mp hnone requirement hmem

/-- The last level of accepted settings. -/
theorem one_le_maxLevel {s t : BreedingSettings} (h : s.validate = .ok t) : 1 ≤ s.maxLevel :=
  of_decide_eq_true
    (requirements_of_validate h (decide (1 ≤ s.maxLevel), .maxLevel) (by simp [requirements]))

/-- The chance of a further mutation in accepted settings. -/
theorem extraMutationPercent_le {s t : BreedingSettings} (h : s.validate = .ok t) :
    s.extraMutationPercent ≤ 100 :=
  (of_decide_eq_true (requirements_of_validate h
    (decide (0 ≤ s.extraMutationPercent ∧ s.extraMutationPercent ≤ 100), .extraMutationPercent)
    (by simp [requirements]))).2

/-- The weights of the mutations. -/
def mutationWeights (s : BreedingSettings) : WeightTable :=
  [("insertion", Double.ofInt s.insertionWeight), ("deletion", Double.ofInt s.deletionWeight),
    ("modification", Double.ofInt s.modificationWeight)]

end BreedingSettings

end TradeRules
