import TorusFHE.Random.Generator

/-!
# The ChaCha20 key stream

A seed of 32 bytes determines an endless stream of words: block `i` of the stream is the ChaCha20
block function with the seed as key, `i` as 64-bit block counter and a zero nonce.

* `ChaCha20.word seed i` is word `i` of the stream;
* `ChaCha20.Stream` is a position in it, a generator that keeps the current block at hand.
-/

namespace TorusFHE

/-- The seed of a stream: 32 bytes. -/
structure Seed where
  bytes : List UInt8
  length_bytes : bytes.length = 32
deriving DecidableEq

namespace Seed

/-- Word `i` of the seed, least significant byte first. -/
def word (s : Seed) (i : Nat) : UInt32 :=
  let byte (k : Nat) : UInt32 := (s.bytes.getD (4 * i + k) 0).toUInt32
  byte 0 ||| byte 1 <<< 8 ||| byte 2 <<< 16 ||| byte 3 <<< 24

def ofVector (bytes : Vector UInt8 32) : Seed :=
  ⟨bytes.toList, bytes.length_toList⟩

def draw {γ : Type} [Generator γ] : Sampler γ Seed := fun g =>
  let (bytes, g) := Generator.fill 32 g
  (ofVector bytes, g)

end Seed

namespace ChaCha20

abbrev Block := Vector UInt32 16

def rotateLeft (w n : UInt32) : UInt32 :=
  w <<< n ||| w >>> (32 - n)

def quarterRound (s : Block) (i j k l : Fin 16) : Block :=
  let a := s[i] + s[j]
  let d := rotateLeft (s[l] ^^^ a) 16
  let c := s[k] + d
  let b := rotateLeft (s[j] ^^^ c) 12
  let a := a + b
  let d := rotateLeft (d ^^^ a) 8
  let c := c + d
  let b := rotateLeft (b ^^^ c) 7
  (((s.set i a).set j b).set k c).set l d

/-- Four quarter rounds on the columns, then four on the diagonals. -/
def doubleRound (s : Block) : Block :=
  let s := quarterRound s 0 4 8 12
  let s := quarterRound s 1 5 9 13
  let s := quarterRound s 2 6 10 14
  let s := quarterRound s 3 7 11 15
  let s := quarterRound s 0 5 10 15
  let s := quarterRound s 1 6 11 12
  let s := quarterRound s 2 7 8 13
  quarterRound s 3 4 9 14

/-- The constants, the seed, the block counter and the zero nonce. -/
def initial (seed : Seed) (counter : UInt64) : Block := #v[
    0x61707865, 0x3320646e, 0x79622d32, 0x6b206574,
    seed.word 0, seed.word 1, seed.word 2, seed.word 3,
    seed.word 4, seed.word 5, seed.word 6, seed.word 7,
    counter.toUInt32, (counter >>> 32).toUInt32, 0, 0]

/-- Block `i` of the stream: twenty rounds, then the initial block added. -/
def block (seed : Seed) (i : Nat) : Block :=
  let start := initial seed (UInt64.ofNat i)
  (Nat.repeat doubleRound 10 start).zipWith (· + ·) start

/-- The published answer for a seed of zeros that ends in one, and the second block. -/
example :
    block ⟨List.replicate 31 0 ++ [1], rfl⟩ 1 = #v[
      0x2452eb3a, 0x9249f8ec, 0x8d829d9b, 0xddd4ceb1,
      0xe8252083, 0x60818b01, 0xf38422b8, 0x5aaa49c9,
      0xbb00ca8e, 0xda3ba7b4, 0xc4b592d1, 0xfdf2732f,
      0x4436274e, 0x2561b3c8, 0xebdd4aa6, 0xa0136c00] := by
  decide +kernel

/-- Word `i` of the stream of a seed. -/
def word (seed : Seed) (i : Nat) : UInt32 :=
  (block seed (i / 16))[i % 16]

/-- A position in the stream of a seed. -/
structure Stream where
  seed : Seed
  position : Nat
  current : Block
  current_eq : current = block seed (position / 16)

namespace Stream

def ofSeed (seed : Seed) : Stream :=
  ⟨seed, 0, block seed 0, rfl⟩

def advance (s : Stream) : Stream :=
  let position := s.position + 1
  if h : position / 16 = s.position / 16 then
    ⟨s.seed, position, s.current, by rw [s.current_eq, h]⟩
  else ⟨s.seed, position, block s.seed (position / 16), rfl⟩

instance : Generator Stream :=
  .ofWords fun s => (s.current[s.position % 16], s.advance)

end Stream

/-- The masks of `n` entries that a seed stands for come from its stream, one after the other. -/
def nextMask (n : Nat) : Sampler Stream TorusVec :=
  Sampler.uniform.repeated n

end ChaCha20

end TorusFHE
