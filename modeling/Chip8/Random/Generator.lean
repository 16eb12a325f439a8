import Chip8.Random.ChaCha

/-! # Random bytes

    A generator is a key and the number of bytes drawn so far. Each draw takes the low byte of the
    next word of the key stream, so the bytes depend on the key alone, and equal keys give equal
    bytes at equal positions whatever happens in between. A seed of 64 bits is spread over the key
    by a congruential generator whose states are folded to words. -/

namespace Chip8

/-- A source of random bytes. -/
structure Generator where
  key : ChaCha.Key
  drawn : Nat
  deriving DecidableEq

namespace Generator

/-- The state that follows `s` in the seed sequence. -/
def nextState (s : UInt64) : UInt64 := s * 6364136223846793005 + 11634580027462260723

/-- The key word that a state of the seed sequence gives. -/
def foldState (s : UInt64) : UInt32 :=
  ChaCha.rotr ((s >>> 18 ^^^ s) >>> 27).toUInt32 (s >>> 59).toUInt32

/-- The key of a seed: a word from each of the next eight states. -/
def keyOfSeed (seed : UInt64) : ChaCha.Key :=
  Vector.ofFn fun i => foldState (Nat.repeat nextState (i.val + 1) seed)

/-- A generator at its first byte. -/
def ofKey (key : ChaCha.Key) : Generator := ⟨key, 0⟩

/-- The generator of a seed. -/
def ofSeed (seed : UInt64) : Generator := ofKey (keyOfSeed seed)

/-- Byte `j` under a key. -/
def byteAt (key : ChaCha.Key) (j : Nat) : UInt8 := (ChaCha.word key j).toUInt8

/-- The next byte, and the generator after it. -/
def next (g : Generator) : UInt8 × Generator :=
  (byteAt g.key g.drawn, { g with drawn := g.drawn + 1 })

end Generator

end Chip8
