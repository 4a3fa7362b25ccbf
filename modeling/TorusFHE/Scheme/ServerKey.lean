import TorusFHE.Glwe.Ggsw
import TorusFHE.Lwe.KeySwitch
import TorusFHE.Scheme.ClientKey

/-!
# The server key

What the party that computes on ciphertexts is given: a gadget encryption of every bit of the
client's key of samples under its ring key, and a key that switches samples from the ring key, seen
without its structure, back to the key of samples.

Generation comes over any function that multiplies masks by the ring key (`generateOver`), with that
by the Fourier transform (`generateWith`), and with the noise of the parameters (`generate`).
-/

namespace TorusFHE

structure ServerKey where
  /-- A gadget encryption of each entry of the key of samples, in order. -/
  bootstrappingKey : List GgswSample
  keySwitchingKey : KeySwitchingKey
  params : Parameters
deriving DecidableEq

namespace ServerKey

variable {γ : Type} [Generator γ]

/-- Draws the gadget encryptions, then the key-switching key, whatever the function that multiplies
masks by the ring key. -/
def generateOver (product : Glwe.MaskProduct) (noise : Noise γ) (ck : ClientKey) :
    Draw γ ServerKey := do
  let pbs ← Draw.lift ck.params.pbsGadget
  let bootstrappingKey ← ck.lweKey.coeffs.mapM fun s => Ggsw.encrypt pbs product s noise.glwe
  let ks ← Draw.lift ck.params.ksGadget
  let source := ck.glweKey.toLweKey.coeffs
  let keySwitchingKey ← KeySwitchingKey.generate ks source ck.lweKey noise.lwe
  return ⟨bootstrappingKey, keySwitchingKey, ck.params⟩

/-- The product of masks with the ring key of a client, by the Fourier transform. -/
def maskProduct (ck : ClientKey) : Except Fault Glwe.MaskProduct := do
  let transform : Transform ComplexFloat ← Transform.ofSize ck.params.degree
  Glwe.maskProduct transform ck.glweKey

def generateWith (noise : Noise γ) (ck : ClientKey) : Draw γ ServerKey := do
  generateOver (← Draw.lift (maskProduct ck)) noise ck

def generate (ck : ClientKey) : Draw γ ServerKey :=
  generateWith ck.params.noise ck

/-- Encrypts a constant without noise, for any client key of the same parameters. -/
def trivialEncrypt (sk : ServerKey) (m : Bool) : Ciphertext :=
  .trivial sk.params.n m

/-- Turns a sample under the ring key into one under the key of samples. -/
def keySwitch (sk : ServerKey) (c : LweSample) : Except Fault LweSample := do
  sk.keySwitchingKey.switch (← sk.params.ksGadget) c

end ServerKey

variable {γ : Type} [Generator γ]

/-- Draws the two keys of an instance, the client key first.  Nothing is drawn for invalid
parameters. -/
def generateKeysWith (noise : Noise γ) (p : Parameters) :
    Draw γ (Except Error (ClientKey × ServerKey)) := do
  match ← ClientKey.generate p with
  | .error e => return .error e
  | .ok ck => return .ok (ck, ← ServerKey.generateWith noise ck)

/-- Draws the two keys of an instance with the noise of its parameters. -/
def generateKeys (p : Parameters) : Draw γ (Except Error (ClientKey × ServerKey)) :=
  generateKeysWith p.noise p

end TorusFHE
