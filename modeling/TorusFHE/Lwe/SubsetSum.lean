import TorusFHE.Lwe.Sample

/-!
# Encryption by subset sums

Whoever holds samples of phase nearly zero can encrypt without the key: a random subset of them is
added to the message.  One word is drawn for each sample, and its top bit selects the sample.

The samples are either a list, or the bodies of samples whose masks follow each other in the stream
of a seed.  In the second case each mask is expanded only when its turn comes.
-/

namespace TorusFHE.SubsetSum

variable {γ : Type} [Generator γ]

/-- Draws whether `zero` is selected, and adds it to `acc` if so. -/
def step (acc zero : LweSample) : Draw γ LweSample := do
  if ← Draw.sample Sampler.bit then Draw.lift (acc.add zero) else return acc

/-- The sum of `m` and a random subset of the samples, all of dimension `n`. -/
def encrypt (n : Nat) (zeros : List LweSample) (m : Torus) : Draw γ LweSample :=
  zeros.foldlM step (.trivial n m)

/-- The samples with these bodies whose masks follow each other in a stream. -/
def expand (n : Nat) : List Torus → ChaCha20.Stream → List LweSample :=
  go []
where
  /-- Expands the rest of the bodies, behind the samples in `acc`, which are in reverse. -/
  go (acc : List LweSample) : List Torus → ChaCha20.Stream → List LweSample
    | [], _ => acc.reverse
    | b :: bodies, stream =>
      let (mask, stream) := ChaCha20.nextMask n stream
      go (⟨mask, b⟩ :: acc) bodies stream

/-- The sum of `acc` and a random subset of the samples with these bodies, whose masks follow each
other in a stream. -/
def addSeeded (n : Nat) (acc : LweSample) :
    List Torus → ChaCha20.Stream → Draw γ LweSample
  | [], _ => return acc
  | b :: bodies, stream => do
    let (mask, stream) := ChaCha20.nextMask n stream
    let acc ← step acc ⟨mask, b⟩
    addSeeded n acc bodies stream

end TorusFHE.SubsetSum
