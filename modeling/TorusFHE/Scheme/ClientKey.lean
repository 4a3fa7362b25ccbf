import TorusFHE.Glwe.Sample
import TorusFHE.Scheme.Ciphertext
import TorusFHE.Scheme.Error

/-!
# The client key

The secret key of an instance: a key of samples, which encrypts bits, and a key of ring samples,
which the server key is made from.  It encrypts bits with or without their masks, and decrypts.

Encryption comes with any noise (`encryptWith`) and with that of the parameters (`encrypt`).
-/

namespace TorusFHE

/-- The secret keys of an instance. -/
structure ClientKey where
  lweKey : LweKey
  glweKey : GlweKey
  params : Parameters
deriving DecidableEq

namespace ClientKey

variable {γ : Type} [Generator γ]

/-- Draws the keys, that of samples first.  Nothing is drawn for invalid parameters. -/
def generate (p : Parameters) : Draw γ (Except Error ClientKey) := do
  match p.validate with
  | .error e => return .error (.invalidParameter e)
  | .ok () =>
    let lweKey ← Draw.sample (LweKey.generate p.n)
    let glweKey ← GlweKey.generate p.k p.degree
    return .ok ⟨lweKey, glweKey, p⟩

/-- Encrypts a bit; draws the mask, then the noise. -/
def encryptWith (noise : Noise γ) (ck : ClientKey) (m : Bool) : Draw γ Ciphertext := do
  return .ofSample (← ck.lweKey.encrypt (encodeBit m) noise.lwe)

/-- Encrypts a bit under a mask expanded from a seed; draws the seed, then the noise. -/
def encryptCompressedWith (noise : Noise γ) (ck : ClientKey) (m : Bool) :
    Draw γ CompressedCiphertext := do
  let seed ← Draw.sample Seed.draw
  return ⟨ck.params.lweDimension, ← ck.lweKey.encryptSeeded (encodeBit m) seed noise.lwe⟩

def encrypt (ck : ClientKey) (m : Bool) : Draw γ Ciphertext :=
  ck.encryptWith ck.params.noise m

def encryptCompressed (ck : ClientKey) (m : Bool) : Draw γ CompressedCiphertext :=
  ck.encryptCompressedWith ck.params.noise m

/-- Decrypts a ciphertext whose declared and actual dimensions are that of the key.  Under a key of
the same dimension that did not encrypt it, the bit is arbitrary. -/
def decrypt (ck : ClientKey) (c : Ciphertext) : Except Fault (Except Error Bool) :=
  if c.lweDimension.toNat = ck.params.n ∧ c.sample.dimension = ck.params.n then
    return .ok (decodeBit (← c.sample.phase ck.lweKey))
  else return .error (.dimensionMismatch ck.params.n c.sample.dimension)

/-- Text that names the parameters and hides the secrets. -/
def publicText (ck : ClientKey) : String :=
  "ClientKey \x7b params: " ++ ck.params.detailedText ++ ", .. \x7d"

end ClientKey

end TorusFHE
