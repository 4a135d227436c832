import TinLang.Text

/-!
# SHA-256

The 32-byte digest that protects the body of an image. The message is padded to whole blocks of
64 bytes, and the blocks are absorbed one after another into eight 32-bit words.
-/
namespace TinLang.Sha256

/-- The round constants: the first 32 bits of the fractional parts of the cube roots of the first
64 primes. -/
def constants : List UInt32 := [
  0x428a2f98, 0x71374491, 0xb5c0fbcf, 0xe9b5dba5, 0x3956c25b, 0x59f111f1, 0x923f82a4, 0xab1c5ed5,
  0xd807aa98, 0x12835b01, 0x243185be, 0x550c7dc3, 0x72be5d74, 0x80deb1fe, 0x9bdc06a7, 0xc19bf174,
  0xe49b69c1, 0xefbe4786, 0x0fc19dc6, 0x240ca1cc, 0x2de92c6f, 0x4a7484aa, 0x5cb0a9dc, 0x76f988da,
  0x983e5152, 0xa831c66d, 0xb00327c8, 0xbf597fc7, 0xc6e00bf3, 0xd5a79147, 0x06ca6351, 0x14292967,
  0x27b70a85, 0x2e1b2138, 0x4d2c6dfc, 0x53380d13, 0x650a7354, 0x766a0abb, 0x81c2c92e, 0x92722c85,
  0xa2bfe8a1, 0xa81a664b, 0xc24b8b70, 0xc76c51a3, 0xd192e819, 0xd6990624, 0xf40e3585, 0x106aa070,
  0x19a4c116, 0x1e376c08, 0x2748774c, 0x34b0bcb5, 0x391c0cb3, 0x4ed8aa4a, 0x5b9cca4f, 0x682e6ff3,
  0x748f82ee, 0x78a5636f, 0x84c87814, 0x8cc70208, 0x90befffa, 0xa4506ceb, 0xbef9a3f7, 0xc67178f2]

/-- The eight words that a digest is computed in. -/
structure Digest where
  a : UInt32
  b : UInt32
  c : UInt32
  d : UInt32
  e : UInt32
  f : UInt32
  g : UInt32
  h : UInt32
  deriving DecidableEq, Repr

/-- The words before the first block: the first 32 bits of the fractional parts of the square
roots of the first eight primes. -/
def Digest.start : Digest :=
  ⟨0x6a09e667, 0xbb67ae85, 0x3c6ef372, 0xa54ff53a, 0x510e527f, 0x9b05688c, 0x1f83d9ab, 0x5be0cd19⟩

/-- A word rotated to the right. -/
def rotate (word : UInt32) (count : UInt32) : UInt32 :=
  (word >>> count) ||| (word <<< (32 - count))

/-- The big-endian words of a byte sequence whose length is a multiple of four. -/
def words : Text → List UInt32
  | first :: second :: third :: fourth :: rest =>
    (((first.toUInt32 * 256 + second.toUInt32) * 256 + third.toUInt32) * 256 + fourth.toUInt32) ::
      words rest
  | _ => []

/-- The message with a one bit, zeros and its length in bits after it, which fills whole
blocks. -/
def padded (message : Text) : Text :=
  message ++ 0x80 :: List.replicate ((119 - message.length % 64) % 64) 0 ++
    Text.bigEndian 8 (message.length * 8)

/-- The next word of the schedule, from the sixteen before it. -/
def scheduleNext (before : Array UInt32) : UInt32 :=
  let word (back : Nat) : UInt32 := before.getD (before.size - back) 0
  let small0 := rotate (word 15) 7 ^^^ rotate (word 15) 18 ^^^ (word 15 >>> 3)
  let small1 := rotate (word 2) 17 ^^^ rotate (word 2) 19 ^^^ (word 2 >>> 10)
  word 16 + small0 + word 7 + small1

/-- The sixteen words of a block, continued by some more. -/
def schedule : (count : Nat) → Array UInt32 → Array UInt32
  | 0, known => known
  | count + 1, known => schedule count (known.push (scheduleNext known))

/-- The words after one round with a round constant and a word of the schedule. -/
def round (words : Digest) (constant word : UInt32) : Digest :=
  let ⟨a, b, c, d, e, f, g, h⟩ := words
  let big1 := rotate e 6 ^^^ rotate e 11 ^^^ rotate e 25
  let choice := (e &&& f) ^^^ (~~~e &&& g)
  let first := h + big1 + choice + constant + word
  let big0 := rotate a 2 ^^^ rotate a 13 ^^^ rotate a 22
  let majority := (a &&& b) ^^^ (a &&& c) ^^^ (b &&& c)
  ⟨first + (big0 + majority), a, b, c, d + first, e, f, g⟩

/-- The words after one block. -/
def absorb (words : Digest) (block : List UInt32) : Digest :=
  let schedule := (schedule 48 block.toArray).toList
  let mixed := (constants.zip schedule).foldl (fun state (constant, word) =>
    round state constant word) words
  ⟨words.a + mixed.a, words.b + mixed.b, words.c + mixed.c, words.d + mixed.d,
    words.e + mixed.e, words.f + mixed.f, words.g + mixed.g, words.h + mixed.h⟩

/-- The words after some blocks of sixteen words. -/
def absorbAll : (blocks : Nat) → Digest → List UInt32 → Digest
  | 0, state, _ => state
  | blocks + 1, state, input => absorbAll blocks (absorb state (input.take 16)) (input.drop 16)

/-- The bytes of the eight words. -/
def Digest.bytes (digest : Digest) : Text :=
  [digest.a, digest.b, digest.c, digest.d, digest.e, digest.f, digest.g, digest.h].flatMap
    fun word => Text.bigEndian 4 word.toNat

/-- The digest of a message. -/
def hash (message : Text) : Text :=
  let input := words (padded message)
  (absorbAll (input.length / 16) .start input).bytes

/-- A digest has 32 bytes. -/
@[simp] theorem length_hash (message : Text) : (hash message).length = 32 := by
  simp [hash, Digest.bytes]

end TinLang.Sha256
