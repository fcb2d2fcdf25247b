import KroneckerCode.Power

/-!
# A keystream of 64-bit numbers

The numbers come from the ChaCha stream cipher with eight rounds. A key of
eight words is expanded from the seed by a multiplicative generator. Block `n`
of the stream scrambles sixteen words: four constants, the key, the counter `n`
in two words, and two zeros. The words of the blocks, in their order, are taken
in pairs, the low half first, so a block holds eight numbers.

All arithmetic is modulo the size of its words. The counter has 64 bits, so the
stream repeats after `period` numbers and `number` needs no other bound.
-/

namespace KroneckerCode.Keystream

/-- The words that a stream depends on. -/
abbrev Key := Vector UInt32 8

/-- The words that a block is scrambled from, or into. -/
abbrev Block := Vector UInt32 16

/-! ## The key of a seed -/

/-- One step of the generator that expands a seed. -/
def advance (state : UInt64) : UInt64 :=
  state * 6364136223846793005 + 11634580027462260723

/-- The bits of `x` moved to the right by `n` places, around the end. -/
def rotateRight (x n : UInt32) : UInt32 :=
  (x >>> n) ||| (x <<< (32 - n))

/-- The word that a state of the generator gives. -/
def scramble (state : UInt64) : UInt32 :=
  rotateRight (((state >>> 18) ^^^ state) >>> 27).toUInt32 (state >>> 59).toUInt32

/-- The key that a seed is expanded into. -/
def Key.ofSeed (seed : UInt64) : Key :=
  Vector.ofFn fun i => scramble (Nat.repeat advance (i + 1) seed)

/-! ## The blocks of a key -/

/-- The bits of `x` moved to the left by `n` places, around the end. -/
def rotateLeft (x n : UInt32) : UInt32 :=
  (x <<< n) ||| (x >>> (32 - n))

/-- Scrambles the four words at the given places. -/
def quarterRound (s : Block) (a b c d : Fin 16) : Block :=
  let s := s.set a (s[a] + s[b])
  let s := s.set d (rotateLeft (s[d] ^^^ s[a]) 16)
  let s := s.set c (s[c] + s[d])
  let s := s.set b (rotateLeft (s[b] ^^^ s[c]) 12)
  let s := s.set a (s[a] + s[b])
  let s := s.set d (rotateLeft (s[d] ^^^ s[a]) 8)
  let s := s.set c (s[c] + s[d])
  s.set b (rotateLeft (s[b] ^^^ s[c]) 7)

/-- One round along the columns of the four by four square of words, one along its diagonals. -/
def doubleRound (s : Block) : Block :=
  let s := quarterRound s 0 4 8 12
  let s := quarterRound s 1 5 9 13
  let s := quarterRound s 2 6 10 14
  let s := quarterRound s 3 7 11 15
  let s := quarterRound s 0 5 10 15
  let s := quarterRound s 1 6 11 12
  let s := quarterRound s 2 7 8 13
  quarterRound s 3 4 9 14

/-- The words that block `n` is scrambled from. -/
def initialBlock (key : Key) (n : Nat) : Block :=
  #v[0x61707865, 0x3320646e, 0x79622d32, 0x6b206574,
    key[0], key[1], key[2], key[3], key[4], key[5], key[6], key[7],
    UInt32.ofNat n, UInt32.ofNat (n / twoPow 32), 0, 0]

/-- Block `n` of the stream. -/
def block (key : Key) (n : Nat) : Block :=
  let start := initialBlock key n
  Vector.zipWith (· + ·) (Nat.repeat doubleRound 4 start) start

/-- Number `i` of the stream. -/
def number (key : Key) (i : Nat) : UInt64 :=
  let words := block key (i / 8)
  let low := words[2 * (i % 8)]
  let high := words[2 * (i % 8) + 1]
  low.toUInt64 ||| (high.toUInt64 <<< 32)

/-- After so many numbers the counter has come round. -/
def period : Nat := 8 * twoPow 64

end KroneckerCode.Keystream
