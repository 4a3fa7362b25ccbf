import TorusFHE.Lwe.SubsetSum
import TorusFHE.Scheme.ClientKey

/-!
# Public keys

A public key is a list of encryptions of zero, so many that their subset sums hide which of them
were added.  In compressed form only the bodies and one seed are kept, and the masks follow each
other in the stream of the seed.
-/

namespace TorusFHE

/-- The number of encryptions of zero in a public key of dimension `n`, at most the largest number of
64 bits. -/
def publicKeySize (n : Nat) : Nat :=
  min (32 * (n + 1) + 128) (UInt64.size - 1)

/-- A key that encrypts and does not decrypt. -/
structure PublicKey where
  zeros : List LweSample
  params : Parameters
deriving DecidableEq

/-- A public key with one seed in place of the masks. -/
structure CompressedPublicKey where
  seed : Seed
  /-- The bodies of the encryptions of zero. -/
  bodies : List Torus
  params : Parameters
deriving DecidableEq

variable {γ : Type} [Generator γ]

namespace PublicKey

def generateWith (noise : Noise γ) (ck : ClientKey) : Draw γ PublicKey := do
  let plaintexts := List.replicate (publicKeySize ck.params.n) (0 : Torus)
  return ⟨← plaintexts.mapM fun m => ck.lweKey.encrypt m noise.lwe, ck.params⟩

def generate (ck : ClientKey) : Draw γ PublicKey :=
  generateWith ck.params.noise ck

/-- Encrypts a bit; draws one word for each encryption of zero. -/
def encrypt (pk : PublicKey) (m : Bool) : Draw γ Ciphertext := do
  return .ofSample (← SubsetSum.encrypt pk.params.n pk.zeros (encodeBit m))

end PublicKey

namespace CompressedPublicKey

/-- Draws the bodies of `count` encryptions of zero under masks of dimension `n` that follow each
other in a stream; `acc` holds those before, in reverse. -/
def drawBodies (noise : Noise γ) (s : LweKey) (n : Nat) :
    Nat → List Torus → ChaCha20.Stream → Draw γ (List Torus)
  | 0, acc, _ => return acc.reverse
  | count + 1, acc, stream => do
    let (mask, stream) := ChaCha20.nextMask n stream
    let zero ← s.encryptWithMask 0 mask noise.lwe
    drawBodies noise s n count (zero.body :: acc) stream

/-- Draws the seed, then the noise of every encryption of zero. -/
def generateWith (noise : Noise γ) (ck : ClientKey) : Draw γ CompressedPublicKey := do
  let n := ck.params.n
  let seed ← Draw.sample Seed.draw
  let bodies ← drawBodies noise ck.lweKey n (publicKeySize n) [] (.ofSeed seed)
  return ⟨seed, bodies, ck.params⟩

def generate (ck : ClientKey) : Draw γ CompressedPublicKey :=
  generateWith ck.params.noise ck

/-- The public key with all masks expanded. -/
def decompress (pk : CompressedPublicKey) : PublicKey :=
  ⟨SubsetSum.expand pk.params.n pk.bodies (.ofSeed pk.seed), pk.params⟩

/-- Encrypts a bit, expanding one mask at a time; draws one word for each encryption of zero. -/
def encrypt (pk : CompressedPublicKey) (m : Bool) : Draw γ Ciphertext := do
  let n := pk.params.n
  let sum ← SubsetSum.addSeeded n (.trivial n (encodeBit m)) pk.bodies (.ofSeed pk.seed)
  return .ofSample sum

end CompressedPublicKey

end TorusFHE
