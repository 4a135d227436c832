/-!
# Dice

A source of draws rolls a number below a given number of sides and moves on. The shipped source
is a permuted congruential generator with 128 bits of state. Reducing one of its words to a range
multiplies it by the range and keeps the high half; words whose low half is too small are
rejected, so that every result is equally likely.
-/
namespace TinLang

/-- A source of draws with a state of its own. -/
structure Dice (σ : Type) where
  /-- A number below the given number of sides, and the state after the draw. -/
  roll : (sides : Nat) → σ → Nat × σ

namespace Pcg

/-- The state of the generator. -/
abbrev State := BitVec 128

/-- The state from two seeds of 64 bits, the first of which is the high half. -/
def seed (high low : Nat) : State := BitVec.ofNat 128
    (high % 0x10000000000000000 * 0x10000000000000000 + low % 0x10000000000000000)

/-- The multiplier of a step. -/
def multiplier : State := BitVec.ofNat 128 (2549297995355413924 * 0x10000000000000000 +
    4865540595714422341)

/-- The increment of a step. -/
def increment : State := BitVec.ofNat 128 (6364136223846793005 * 0x10000000000000000 +
    1442695040888963407)

/-- The next state. -/
def next (state : State) : State := state * multiplier + increment

/-- The word of a state: shifts and products of the high half, the last with the low half. -/
def output (state : State) : BitVec 64 :=
  let high : BitVec 64 := (state >>> 64).setWidth 64
  let low : BitVec 64 := state.setWidth 64
  let mixed := (high ^^^ (high >>> 32)) * 0xda942042e4dd58b5
  (mixed ^^^ (mixed >>> 48)) * (low ||| 1)

/-- The word of the next state, and that state. -/
def word (state : State) : Nat × State := ((output (next state)).toNat, next state)

/-- A number below a bound from words of `bits` bits: the high part of the product with the bound,
for the first of at most `tries` words whose low part reaches the threshold. -/
def reduce (bits bound : Nat) : (tries : Nat) → State → Nat × State
  | 0, state => (0, state)
  | tries + 1, state =>
    let (drawn, after) := word state
    let product := drawn / Nat.pow 2 (64 - bits) * bound
    if product % Nat.pow 2 bits < Nat.pow 2 bits % bound then reduce bits bound tries after
    else (product / Nat.pow 2 bits, after)

/-- How many words are tried before zero is taken. -/
def maxTries : Nat := 1000

/-- A number below a bound. Powers of two keep the low bits of one word. -/
def below (bound : Nat) (state : State) : Nat × State :=
  if bound = Nat.pow 2 bound.log2 then
    let (drawn, after) := word state
    (drawn % bound, after)
  else reduce (if bound < 0x100000000 then 32 else 64) bound maxTries state

/-- The generator as a source of draws. -/
def dice : Dice State := ⟨below⟩

end Pcg

end TinLang
