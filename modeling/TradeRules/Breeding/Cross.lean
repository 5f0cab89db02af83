import TradeRules.Breeding.Mutation
import TradeRules.Rule.Simplify

/-!
# Breeding strategies

A strategy is made at random or bred from a father and a mother.  A child starts with the rules of
its father.  It may then take over the sell rule of its mother, or parts of her rules.  Its rules
are mutated at last, and simplified.  A mere copy of the father is mutated in any case.

The two rules of a strategy have a generator each, since they may read different variables.
-/

namespace TradeRules

/-- The generators of the two rules of a strategy. -/
structure Generators where
  /-- That of buy rules. -/
  buy : Generator
  /-- That of sell rules. -/
  sell : Generator

/-- How a child is made of its parents. -/
structure Cross where
  /-- The child is a copy of its father, mutated in any case. -/
  isClone : Bool := false
  /-- The sell rule is that of the mother. -/
  swapsSell : Bool := false
  /-- The buy rule takes a part of the buy rule of the mother. -/
  mixesBuy : Bool := false
  /-- The sell rule takes a part of the sell rule of the mother. -/
  mixesSell : Bool := false
deriving DecidableEq, Repr

/-- The ways to breed by name.  Under any other name a child is a copy that may be mutated. -/
def Cross.ofName (name : String) : Cross :=
  match name with
  | "clone" => { isClone := true }
  | "swap" => { swapsSell := true }
  | "recombine" => { mixesBuy := true }
  | "swap_and_recombine" => { swapsSell := true, mixesBuy := true }
  | "double_recombine" => { mixesBuy := true, mixesSell := true }
  | _ => {}

namespace Strategy

/-- The strategy of two rules after they are simplified. -/
def ofRules (rules : Rules) : Draw Strategy := do
  let buy ← Draw.built rules.buy.simplify
  let sell ← Draw.built rules.sell.simplify
  match make ⟨buy, sell⟩ with
  | .ok s => return s
  | .error e => throw (.strategy e)

/-- A strategy with random rules. -/
def random (g : Generators) : Draw Strategy := do
  let buy ← g.buy.branch .boolean 0 none
  let sell ← g.sell.branch .boolean 0 none
  ofRules ⟨buy, sell⟩

/-- The rules with one of them or both mutated in any case. -/
def forceMutation (g : Generators) (rules : Rules) : Draw Rules := do
  let which ← Draw.below 3
  let buy ← if which == 0 || which == 2 then g.buy.mutate 100 rules.buy else pure rules.buy
  let sell ← if which == 1 || which == 2 then g.sell.mutate 100 rules.sell else pure rules.sell
  return ⟨buy, sell⟩

/-- The rules with each of them mutated with the chance in the settings. -/
def mayMutate (g : Generators) (rules : Rules) : Draw Rules := do
  let buy ← g.buy.mutate g.buy.settings.mutationPercent rules.buy
  let sell ← g.sell.mutate g.sell.settings.mutationPercent rules.sell
  return ⟨buy, sell⟩

/-- The rules of a child before it is simplified. -/
def crossed (g : Generators) (father mother : Strategy) (c : Cross) : Draw Rules := do
  let sell := if c.swapsSell then mother.rules.sell else father.rules.sell
  let buy ←
    if c.mixesBuy then Generator.recombine father.rules.buy mother.rules.buy
    else pure father.rules.buy
  let sell ← if c.mixesSell then Generator.recombine sell mother.rules.sell else pure sell
  if c.isClone then forceMutation g ⟨buy, sell⟩ else mayMutate g ⟨buy, sell⟩

/-- A child of two strategies. -/
def breed (g : Generators) (settings : BreedingSettings) (father mother : Strategy) :
    Draw Strategy := do
  let name ← Draw.weighted settings.breedWeights
  ofRules (← crossed g father mother (Cross.ofName name))

end Strategy

end TradeRules
