import TorusFHE.Lwe.Sample

/-!
# Encrypted bits

A bit is encoded as an eighth of a turn, forwards for true and backwards for false, and read from the
half of the turn that a phase lies in.  A ciphertext is a sample with the dimension that it declares;
a compressed ciphertext keeps the seed of its mask instead of the mask.
-/

namespace TorusFHE

/-- The angle of a bit. -/
def encodeBit (m : Bool) : Torus :=
  if m then Torus.fraction 3 else -Torus.fraction 3

/-- The bit of a phase, true on the first half of the turn. -/
def decodeBit (phase : Torus) : Bool :=
  !phase.upperHalf

@[ext] structure Ciphertext where
  lweDimension : UInt64
  sample : LweSample
deriving DecidableEq, Repr

/-- An encrypted bit whose mask is expanded from a seed.  Only fresh encryptions have a seed, so there
is no way back to it from a ciphertext. -/
structure CompressedCiphertext where
  lweDimension : UInt64
  sample : SeededSample
deriving DecidableEq

namespace Ciphertext

/-- The ciphertext of a sample, declaring its dimension. -/
def ofSample (c : LweSample) : Ciphertext :=
  ⟨UInt64.ofNat c.dimension, c⟩

/-- The encryption of `m` without mask and noise, in dimension `n`. -/
def trivial (n : Nat) (m : Bool) : Ciphertext :=
  ofSample (.trivial n (encodeBit m))

/-- The encryption of the opposite bit, with no more noise. -/
def not (c : Ciphertext) : Ciphertext :=
  ofSample c.sample.neg

end Ciphertext

/-- The ciphertext with its mask expanded to the declared dimension. -/
def CompressedCiphertext.decompress (c : CompressedCiphertext) : Ciphertext :=
  .ofSample (c.sample.expand c.lweDimension.toNat)

end TorusFHE
