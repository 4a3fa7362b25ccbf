import TorusFHE.Engine
import TorusFHE.Proofs.Random.ChaCha20
import TorusFHE.Proofs.Scheme.Requests
import TorusFHE.Proofs.Wire.Generated

/-!
# Operations with the engine of a thread

Each operation of the interface that is given no generator has a form that is given one.  While the
engine is free, the operation is this form with the stream of the engine, seeded if need be; while the
engine is in use, it is refused before anything else happens.  There is no third state.

* `eq_inUse_or_eq_free`: the states of an engine;
* `Operation.perform_free`: the operation from outside, for any arguments;
* `Operation.perform_inUse`: the operation from within, for any arguments;
* `Operation.generate_makes`: arguments for which there is an answer;
* `Operation.ofPosition_of_generate`: the stream behind it is one of the same seed, not further back.
-/

namespace TorusFHE.Engine

variable {α : Type}

/-! ## Free engines and engines in use -/

/-- The engine of a thread that no computation uses: fresh, or behind a number of words. -/
def free (entropy : Seed) : Option Nat → Engine
  | none => .unseeded entropy
  | some n => .idle (.ofPosition entropy n)

/-- No engine is in another state: it is in use, or it stands somewhere in the stream of a seed. -/
theorem eq_inUse_or_eq_free (engine : Engine) :
    engine = .inUse ∨ ∃ entropy start, engine = free entropy start := by
  cases engine with
  | inUse => exact .inl rfl
  | unseeded entropy => exact .inr ⟨entropy, none, rfl⟩
  | idle generator =>
    exact .inr ⟨generator.seed, some generator.position, congrArg idle generator.eq_ofPosition⟩

/-- A use from outside seeds a fresh engine, runs the computation and frees the engine again. -/
theorem use_free (f : EngineM α) (entropy : Seed) (start : Option Nat) :
    use f (free entropy start) = use.run f (.ofPosition entropy (start.getD 0)) := by
  cases start <;> rfl

/-- From within, the computation is not run and the engine stays as it is. -/
theorem use_inUse (f : EngineM α) : use f .inUse = .ok (.error (.entropy .inUse), .inUse) :=
  rfl

/-- A draw with a free engine goes on in its stream, and a fault is all that can keep it from
returning. -/
theorem useDraw_free (f : Draw ChaCha20.Stream α) (entropy : Seed) (start : Option Nat) :
    useDraw f (free entropy start) =
      (f (.ofPosition entropy (start.getD 0))).map fun r => (.ok r.1, .idle r.2) := by
  rw [useDraw, use_free, use.run, draw]
  cases f (.ofPosition entropy (start.getD 0)) <;> rfl

/-! ## Operations -/

/-- The operations of the interface that use the engine. -/
inductive Operation : Type → Type
  | clientKey (p : Parameters) : Operation ClientKey
  | serverKey (ck : ClientKey) : Operation ServerKey
  | publicKey (ck : ClientKey) : Operation PublicKey
  | compressedPublicKey (ck : ClientKey) : Operation CompressedPublicKey
  | keyPair (p : Parameters) : Operation (ClientKey × ServerKey)
  | encrypt (ck : ClientKey) (m : Bool) : Operation Ciphertext
  | encryptCompressed (ck : ClientKey) (m : Bool) : Operation CompressedCiphertext
  | encryptPublic (pk : PublicKey) (m : Bool) : Operation Ciphertext
  | encryptCompressedPublic (pk : CompressedPublicKey) (m : Bool) : Operation Ciphertext

namespace Operation

def perform : Operation α → ThreadM (Except Error α)
  | clientKey p => generateClientKey p
  | serverKey ck => generateServerKey ck
  | publicKey ck => generatePublicKey ck
  | compressedPublicKey ck => generateCompressedPublicKey ck
  | keyPair p => generateKeyPair p
  | encrypt ck m => Engine.encrypt ck m
  | encryptCompressed ck m => Engine.encryptCompressed ck m
  | encryptPublic pk m => Engine.encryptPublic pk m
  | encryptCompressedPublic pk m => Engine.encryptCompressedPublic pk m

/-- A draw that refuses nothing. -/
def unrefused (x : Draw ChaCha20.Stream α) : Draw ChaCha20.Stream (Except Error α) := do
  return .ok (← x)

/-- The form of the operation that is given a generator.  Only parameters can be refused by it. -/
def generate : Operation α → Draw ChaCha20.Stream (Except Error α)
  | clientKey p => ClientKey.generate p
  | serverKey ck => unrefused (ServerKey.generate ck)
  | publicKey ck => unrefused (PublicKey.generate ck)
  | compressedPublicKey ck => unrefused (CompressedPublicKey.generate ck)
  | keyPair p => generateKeys p
  | encrypt ck m => unrefused (ck.encrypt m)
  | encryptCompressed ck m => unrefused (ck.encryptCompressed m)
  | encryptPublic pk m => unrefused (pk.encrypt m)
  | encryptCompressedPublic pk m => unrefused (pk.encrypt m)

/-- What the operation answers while a computation uses the engine: the generation of a key names
its stage, encryption does not. -/
def refusal : Operation α → Error
  | clientKey _ => .keyGeneration .clientKey .inUse
  | serverKey _ => .keyGeneration .serverKey .inUse
  | publicKey _ => .keyGeneration .publicKey .inUse
  | compressedPublicKey _ => .keyGeneration .compressedPublicKey .inUse
  | keyPair _ => .keyGeneration .keyPair .inUse
  | encrypt .. => .entropy .inUse
  | encryptCompressed .. => .entropy .inUse
  | encryptPublic .. => .entropy .inUse
  | encryptCompressedPublic .. => .entropy .inUse

/-- From within, every operation is refused, whatever its arguments. -/
theorem perform_inUse (op : Operation α) : op.perform .inUse = .ok (.error op.refusal, .inUse) := by
  cases op <;> rfl

/-! ## Operations from outside -/

section Free

variable (entropy : Seed) (start : Option Nat) (x : Draw ChaCha20.Stream α)

/-- A draw with a free engine whose result is looked through for a refusal. -/
theorem blame_useDraw_free {β : Type} (wrap : Except Error α → Except Error β) :
    (do return wrap (← useDraw x) : ThreadM (Except Error β)) (free entropy start) =
      (x (.ofPosition entropy (start.getD 0))).map fun r => (wrap (.ok r.1), .idle r.2) := by
  have hrun : (do return wrap (← useDraw x) : ThreadM (Except Error β)) (free entropy start) =
      (useDraw x (free entropy start) >>= fun r => .ok (wrap r.1, r.2)) := rfl
  rw [hrun, useDraw_free]
  cases x (.ofPosition entropy (start.getD 0)) <;> rfl

theorem map_unrefused (g : ChaCha20.Stream) :
    (unrefused x g).map (fun r => (r.1, Engine.idle r.2)) =
      (x g).map fun r => (.ok r.1, .idle r.2) := by
  have hrun : unrefused x g = (x g >>= fun r => .ok (.ok r.1, r.2)) := rfl
  rw [hrun]
  cases x g <;> rfl

/-- From outside, every operation is its form with a generator, in the stream of the engine. -/
theorem perform_free (op : Operation α) :
    op.perform (free entropy start) =
      (op.generate (.ofPosition entropy (start.getD 0))).map fun r => (r.1, .idle r.2) := by
  cases op with
  -- There is no failure of the engine to blame on anything, so that every result passes as it is.
  | clientKey p => exact blame_useDraw_free _ _ _ fun r => (blame .clientKey r).bind id
  | keyPair p => exact blame_useDraw_free _ _ _ fun r => (blame .keyPair r).bind id
  | serverKey ck =>
    rw [generate, map_unrefused]
    exact blame_useDraw_free _ _ _ (blame .serverKey)
  | publicKey ck =>
    rw [generate, map_unrefused]
    exact blame_useDraw_free _ _ _ (blame .publicKey)
  | compressedPublicKey ck =>
    rw [generate, map_unrefused]
    exact blame_useDraw_free _ _ _ (blame .compressedPublicKey)
  | encrypt | encryptCompressed | encryptPublic | encryptCompressedPublic =>
    rw [generate, map_unrefused]
    exact useDraw_free _ _ _

end Free

/-! ## Streams -/

theorem unrefused_advances {x : Draw ChaCha20.Stream α} (h : x.Advances) :
    (unrefused x).Advances :=
  h.map _

/-- Every operation draws by requests only, those that refuse or fault included. -/
theorem generate_advances (op : Operation α) : op.generate.Advances := by
  cases op with
  | clientKey p => exact ClientKey.generate_advances p
  | keyPair p => exact generateKeysWith_advances p.noise_advances p
  | serverKey ck =>
    exact unrefused_advances (ServerKey.generateWith_advances ck.params.noise_advances ck)
  | publicKey ck =>
    exact unrefused_advances (PublicKey.generateWith_advances ck.params.noise_advances ck)
  | compressedPublicKey ck =>
    exact unrefused_advances (CompressedPublicKey.generateWith_advances ck.params.noise_advances ck)
  | encrypt ck m =>
    exact unrefused_advances (ClientKey.encryptWith_advances ck.params.noise_advances ck m)
  | encryptCompressed ck m =>
    exact unrefused_advances
      (ClientKey.encryptCompressedWith_advances ck.params.noise_advances ck m)
  | encryptPublic pk m => exact unrefused_advances (PublicKey.encrypt_advances pk m)
  | encryptCompressedPublic pk m =>
    exact unrefused_advances (CompressedPublicKey.encrypt_advances pk m)

/-- Behind an operation the stream is that of the same seed, and no further back. -/
theorem ofPosition_of_generate {op : Operation α} {entropy : Seed} {n : Nat}
    {r : Except Error α × ChaCha20.Stream} (h : op.generate (.ofPosition entropy n) = .ok r) :
    n ≤ r.2.position ∧ r.2 = .ofPosition entropy r.2.position := by
  have hreaches : Generator.Reaches (.ofPosition entropy n) r.2 := op.generate_advances h
  rcases ChaCha20.Stream.exists_ofPosition_of_reaches hreaches with ⟨m, hm, hr⟩
  rw [hr]
  exact ⟨hm, rfl⟩

/-! ## Arguments with an answer -/

/-- All parameters are in the domain, since invalid ones are refused, and so are all keys that
generation makes or that pass the shape check. -/
def InDomain : Operation α → Prop
  | clientKey _ => True
  | serverKey ck => ck.Complete
  | publicKey ck => ck.WellFormed
  | compressedPublicKey ck => ck.WellFormed
  | keyPair _ => True
  | encrypt ck _ => ck.WellFormed
  | encryptCompressed ck _ => ck.WellFormed
  | encryptPublic pk _ => pk.checkShape = .ok ()
  | encryptCompressedPublic pk _ => pk.checkShape = .ok ()

/-- What an answer is: an object that is complete or passes its shape check.  Invalid parameters are
refused as such, and nothing is refused for the engine. -/
def Answers : Operation α → Except Error α → Prop
  | clientKey p, r =>
    match p.validate with
    | .error cause => r = .error (.invalidParameter cause)
    | .ok _ => ∃ ck, r = .ok ck ∧ ck.Complete
  | serverKey _, r => ∃ sk, r = .ok sk ∧ sk.checkShape = .ok ()
  | publicKey _, r => ∃ pk, r = .ok pk ∧ pk.checkShape = .ok ()
  | compressedPublicKey _, r => ∃ pk, r = .ok pk ∧ pk.checkShape = .ok ()
  | keyPair p, r =>
    match p.validate with
    | .error cause => r = .error (.invalidParameter cause)
    | .ok _ => ∃ ck sk, r = .ok (ck, sk) ∧ ck.Complete ∧ sk.checkShape = .ok ()
  | encrypt .., r => ∃ c, r = .ok c ∧ c.checkShape = .ok ()
  | encryptCompressed .., r => ∃ c, r = .ok c ∧ c.checkShape = .ok ()
  | encryptPublic .., r => ∃ c, r = .ok c ∧ c.checkShape = .ok ()
  | encryptCompressedPublic .., r => ∃ c, r = .ok c ∧ c.checkShape = .ok ()

theorem unrefused_makes {x : Draw ChaCha20.Stream α} {P : α → Prop} (h : x.Makes P) :
    (unrefused x).Makes fun r => ∃ a, r = .ok a ∧ P a :=
  h.map _ fun a ha => ⟨a, rfl, ha⟩

/-- Every operation on arguments in its domain has an answer. -/
theorem generate_makes {op : Operation α} (h : op.InDomain) : op.generate.Makes op.Answers := by
  cases op with
  | clientKey p =>
    intro g
    cases hp : p.validate with
    | error cause =>
      exact ⟨.error (.invalidParameter cause), g, by simp [generate, ClientKey.generate, hp],
        by simp [Answers, hp]⟩
    | ok _ =>
      rcases ClientKey.generate_makes (Parameters.validate_eq_ok_iff.1 hp) g with ⟨r, g', hrun, hr⟩
      exact ⟨r, g', hrun, by simpa [Answers, hp] using hr⟩
  | keyPair p =>
    intro g
    cases hp : p.validate with
    | error cause =>
      exact ⟨_, g, generateKeysWith_of_validate_eq_error hp p.noise g, by simp [Answers, hp]⟩
    | ok _ =>
      rcases generateKeysWith_makes (Parameters.validate_eq_ok_iff.1 hp) p.noise g with
        ⟨r, g', hrun, hr⟩
      exact ⟨r, g', hrun, by simpa [Answers, hp] using hr⟩
  | serverKey ck => exact unrefused_makes (ServerKey.generateWith_makes h _)
  | publicKey ck => exact unrefused_makes (PublicKey.generateWith_makes h _)
  | compressedPublicKey ck => exact unrefused_makes (CompressedPublicKey.generateWith_makes h _)
  | encrypt ck m => exact unrefused_makes (ClientKey.encryptWith_makes h _ m)
  | encryptCompressed ck m => exact unrefused_makes (ClientKey.encryptCompressedWith_makes h _ m)
  | encryptPublic pk m => exact unrefused_makes (PublicKey.encrypt_makes h m)
  | encryptCompressedPublic pk m => exact unrefused_makes (CompressedPublicKey.encrypt_makes h m)

end Operation

end TorusFHE.Engine
