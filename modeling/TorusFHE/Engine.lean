import TorusFHE.Scheme.PublicKey
import TorusFHE.Scheme.ServerKey

/-!
# The engine of a thread

Operations that are given no generator share one generator per thread, the engine.  It is seeded on
first use and goes on from where the last computation left it.  While a computation uses the engine
no other may: a use within a use fails and changes nothing.

* `Engine.use` runs a computation with the engine;
* `Engine.generateClientKey` and the like are the operations of the interface on top of it.
-/

namespace TorusFHE

/-- What a thread knows of its engine. -/
inductive Engine where
  /-- The engine has not been used; it will start from this seed. -/
  | unseeded (entropy : Seed)
  /-- No computation uses the engine, and this is its generator. -/
  | idle (generator : ChaCha20.Stream)
  | inUse

abbrev ThreadM := StateT Engine (Except Fault)

/-- A computation on a thread that is using the engine, and so holds its generator. -/
abbrev EngineM := StateT ChaCha20.Stream ThreadM

namespace Engine

variable {α : Type}

/-- Runs a computation with the engine, unless one is using it already. -/
def use (f : EngineM α) : ThreadM (Except Error α) := fun engine => do
  match engine with
  | .inUse => return (.error (.entropy .inUse), .inUse)
  | .unseeded entropy => run (.ofSeed entropy)
  | .idle generator => run generator
where
  /-- Runs the computation from a state of the generator and hands the engine back. -/
  run (generator : ChaCha20.Stream) : Except Fault (Except Error α × Engine) := do
    let ((a, generator), _) ← f generator .inUse
    return (.ok a, .idle generator)

def draw (f : Draw ChaCha20.Stream α) : EngineM α := fun generator engine => do
  return (← f generator, engine)

def useDraw (f : Draw ChaCha20.Stream α) : ThreadM (Except Error α) :=
  use (draw f)

/-- Blames a failure to use the engine on the generation of a key. -/
def blame (stage : KeyStage) : Except Error α → Except Error α
  | .error (.entropy cause) => .error (.keyGeneration stage cause)
  | result => result

/-! ## Key generation -/

def generateClientKey (p : Parameters) : ThreadM (Except Error ClientKey) := do
  return (blame .clientKey (← useDraw (ClientKey.generate p))).bind id

def generateServerKey (ck : ClientKey) : ThreadM (Except Error ServerKey) := do
  return blame .serverKey (← useDraw (ServerKey.generate ck))

def generatePublicKey (ck : ClientKey) : ThreadM (Except Error PublicKey) := do
  return blame .publicKey (← useDraw (PublicKey.generate ck))

def generateCompressedPublicKey (ck : ClientKey) :
    ThreadM (Except Error CompressedPublicKey) := do
  return blame .compressedPublicKey (← useDraw (CompressedPublicKey.generate ck))

def generateKeyPair (p : Parameters) : ThreadM (Except Error (ClientKey × ServerKey)) := do
  return (blame .keyPair (← useDraw (generateKeys p))).bind id

/-! ## Encryption -/

def encrypt (ck : ClientKey) (m : Bool) : ThreadM (Except Error Ciphertext) :=
  useDraw (ck.encrypt m)

def encryptCompressed (ck : ClientKey) (m : Bool) :
    ThreadM (Except Error CompressedCiphertext) :=
  useDraw (ck.encryptCompressed m)

def encryptPublic (pk : PublicKey) (m : Bool) : ThreadM (Except Error Ciphertext) :=
  useDraw (pk.encrypt m)

def encryptCompressedPublic (pk : CompressedPublicKey) (m : Bool) :
    ThreadM (Except Error Ciphertext) :=
  useDraw (pk.encrypt m)

end Engine

end TorusFHE
