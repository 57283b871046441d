/-! # Random words

  A permuted congruential generator: a linear congruential step on 128 bits, whose state is
  mixed down to a word by two rounds of shifting and multiplying.
-/

namespace TreeMachine

/-- The state of the generator. -/
structure Random where
  state : BitVec 128
deriving DecidableEq, Repr, Inhabited

namespace Random

/-- The factor of a step. -/
def factor : BitVec 128 := 2549297995355413924#128 <<< 64 ||| 4865540595714422341#128

/-- The increment of a step. -/
def increment : BitVec 128 := 6364136223846793005#128 <<< 64 ||| 1442695040888963407#128

/-- The generator for a seed: the seed is the upper half of its state. -/
def ofSeed (seed : UInt64) : Random :=
  ⟨seed.toBitVec ++ (seed >>> 1 ||| 1).toBitVec⟩

/-- The multiplier of the output function. -/
def mixer : UInt64 := 0xda942042e4dd58b5

/-- The word that a state shows. -/
def output (state : BitVec 128) : UInt64 :=
  let hi := UInt64.ofBitVec (state.extractLsb' 64 64)
  let lo := UInt64.ofBitVec (state.extractLsb' 0 64)
  let hi := (hi ^^^ hi >>> 32) * mixer
  (hi ^^^ hi >>> 48) * (lo ||| 1)

/-- The next word, and the generator after it. -/
def next (r : Random) : UInt64 × Random :=
  let state := r.state * factor + increment
  (output state, ⟨state⟩)

end Random

end TreeMachine
