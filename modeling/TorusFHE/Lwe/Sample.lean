import TorusFHE.Random.ChaCha20

/-!
# Samples of learning with errors

A sample of dimension `n` is a mask `a` of `n` entries and a body `b`.  Under a key `s` it stands for
its phase `b - ⟨a, s⟩`; an encryption of `m` is a sample of phase `m + e` with a small noise `e`.

The mask of a seeded sample is the start of the stream of its seed, so that only the seed is kept.
-/

namespace TorusFHE

structure LweKey where
  /-- The entries, each zero or one in a key made by `LweKey.generate`. -/
  coeffs : TorusVec
deriving DecidableEq

@[ext] structure LweSample where
  mask : TorusVec
  body : Torus
deriving DecidableEq, Repr

structure SeededSample where
  seed : Seed
  body : Torus
deriving DecidableEq

namespace LweSample

def dimension (c : LweSample) : Nat :=
  c.mask.length

/-- The sample of phase `m` under every key of dimension `n`. -/
def trivial (n : Nat) (m : Torus) : LweSample :=
  ⟨TorusVec.zeros n, m⟩

/-- The sample of negated phase. -/
def neg (c : LweSample) : LweSample :=
  ⟨c.mask.neg, -c.body⟩

def add (c d : LweSample) : Except Fault LweSample :=
  return ⟨← c.mask.add d.mask, c.body + d.body⟩

/-- What the sample stands for under the key `s`: its body less the product of its mask and `s`. -/
def phase (s : LweKey) (c : LweSample) : Except Fault Torus :=
  return c.body - (← c.mask.dot s.coeffs)

end LweSample

def SeededSample.expand (c : SeededSample) (n : Nat) : LweSample :=
  ⟨(ChaCha20.nextMask n (.ofSeed c.seed)).1, c.body⟩

namespace LweKey

variable {γ : Type}

def dimension (s : LweKey) : Nat :=
  s.coeffs.length

/-- The encryption of `m` with a given mask; draws the noise. -/
def encryptWithMask (s : LweKey) (m : Torus) (mask : TorusVec) (noise : Sampler γ Torus) :
    Draw γ LweSample := do
  let e ← Draw.sample noise
  let product ← Draw.lift (mask.dot s.coeffs)
  return ⟨mask, product + e + m⟩

/-- The encryption of `m` with a mask expanded from `seed`; draws the noise. -/
def encryptSeeded (s : LweKey) (m : Torus) (seed : Seed) (noise : Sampler γ Torus) :
    Draw γ SeededSample := do
  let mask := (ChaCha20.nextMask s.dimension (.ofSeed seed)).1
  return ⟨seed, (← s.encryptWithMask m mask noise).body⟩

variable [Generator γ]

/-- Draws a binary key of dimension `n`, one word for an entry. -/
def generate (n : Nat) : Sampler γ LweKey := fun g =>
  let (coeffs, g) := Sampler.binary.repeated n g
  (⟨coeffs⟩, g)

/-- The encryption of `m`; draws the mask, then the noise. -/
def encrypt (s : LweKey) (m : Torus) (noise : Sampler γ Torus) : Draw γ LweSample := do
  let mask ← Draw.sample (Sampler.uniform.repeated s.dimension)
  s.encryptWithMask m mask noise

end LweKey

end TorusFHE
