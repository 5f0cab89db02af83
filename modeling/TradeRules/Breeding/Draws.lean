import TradeRules.Number.Double

/-!
# Random numbers

Breeding takes random numbers from a stream.  A stream answers every index, so whatever is bred is
determined by the stream and by where in it one stands.  `Draws` is a stream with the number of its
elements that have been taken.

`Draws.ofSeed` is the stream of a linear congruential generator: a 64-bit state goes from `s` to
`a * s + c`, and its leading 53 bits are the number.  The state after `n` steps is found by squaring
the step, so that the stream can be read at any index.  `Draws.ofTape` repeats a list of numbers.
-/

namespace TradeRules

/-- A step of a linear congruential generator, on words of 64 bits. -/
structure Congruence where
  /-- What the state is multiplied by. -/
  factor : UInt64
  /-- What is added then. -/
  increment : UInt64
deriving DecidableEq, Repr

namespace Congruence

/-- The state after a step. -/
def apply (f : Congruence) (state : UInt64) : UInt64 :=
  f.factor * state + f.increment

/-- The step that takes one step and then another. -/
def andThen (f g : Congruence) : Congruence :=
  { factor := g.factor * f.factor, increment := g.factor * f.increment + g.increment }

/-- The step that changes nothing. -/
def identity : Congruence :=
  { factor := 1, increment := 0 }

/-- The step that takes a step the given number of times. -/
def times (f : Congruence) (n : Nat) : Congruence :=
  if n = 0 then identity
  else
    let rest := times (f.andThen f) (n / 2)
    if n % 2 = 0 then rest else f.andThen rest
termination_by n

/-- Two steps in turn. -/
theorem apply_andThen (f g : Congruence) (state : UInt64) :
    (f.andThen g).apply state = g.apply (f.apply state) := by
  simp only [apply, andThen]
  grind

/-- The step of the generator. -/
def standard : Congruence :=
  { factor := 6364136223846793005, increment := 1442695040888963407 }

end Congruence

/-- A stream of random numbers, of which some have been taken. -/
structure Draws where
  /-- The numbers. -/
  stream : Nat → Float
  /-- The number of numbers taken. -/
  count : Nat := 0

namespace Draws

/-- The next number, and the draws after it. -/
def next (d : Draws) : Float × Draws :=
  (d.stream d.count, { d with count := d.count + 1 })

/-- The number from 0 on and below 1 that a state stands for. -/
def ofState (state : UInt64) : Float :=
  Double.ofNat (state.toNat / Nat.pow 2 11) * Double.powerOfTwo (-53)

/-- The draws of the generator from a seed. -/
def ofSeed (seed : Int) : Draws :=
  { stream := fun i => ofState ((Congruence.standard.times (i + 1)).apply (UInt64.ofInt seed)) }

/-- The draws that repeat a list. -/
def ofTape (tape : Array Float) : Draws :=
  { stream := fun i => (tape[i % tape.size]?).getD 0.0 }

end Draws

end TradeRules
