import TorusFHE.Proofs.Wire.Generated

/-!
# Sessions

A session makes parameters, keys and ciphertexts by calls of the library, each of them from objects
that earlier calls have made or that were read from buffers.  No object of a session is beyond what
its shape check accepts, however long the session is: every call makes objects that pass their checks
out of objects that do.

* `Session.perform?`: what a call makes of the objects at hand;
* `Session.run`: the objects at hand after any sequence of calls;
* `Session.Accepted.perform?_makes`: one call;
* `Session.run_accepted`: every session.

A call comes with a state of a generator, so that a generator may be handed on from call to call,
replaced or copied.
-/

namespace TorusFHE

/-! ## Values -/

/-- An object of the library. -/
inductive Value where
  | parameters (p : Parameters)
  | clientKey (ck : ClientKey)
  | serverKey (sk : ServerKey)
  | publicKey (pk : PublicKey)
  | compressedPublicKey (pk : CompressedPublicKey)
  | ciphertext (c : Ciphertext)
  | compressedCiphertext (c : CompressedCiphertext)

namespace Value

/-- The object of a kind that is read from a buffer. -/
def read (kind : ObjectKind) (buffer : List UInt8) : Except Error Value :=
  match kind with
  | .parameters => (Buffer.deserialize buffer).map parameters
  | .ciphertext => (Buffer.deserialize buffer).map ciphertext
  | .compressedCiphertext => (Buffer.deserialize buffer).map compressedCiphertext
  | .serverKey => (Buffer.deserialize buffer).map serverKey
  | .publicKey => (Buffer.deserialize buffer).map publicKey
  | .compressedPublicKey => (Buffer.deserialize buffer).map compressedPublicKey

/-- An object that passes the check of its kind.  Client keys are never written to a buffer and have
no check; they have the sizes that their parameters prescribe. -/
def Accepted : Value → Prop
  | parameters p => p.checkShape = .ok ()
  | clientKey ck => ck.Complete
  | serverKey sk => sk.checkShape = .ok ()
  | publicKey pk => pk.checkShape = .ok ()
  | compressedPublicKey pk => pk.checkShape = .ok ()
  | ciphertext c => c.checkShape = .ok ()
  | compressedCiphertext c => c.checkShape = .ok ()

/-- Reading ends with the check. -/
theorem accepted_of_map {α : Type} [WireObject α] (f : α → Value)
    (hf : ∀ a, WireObject.checkShape a = .ok () → (f a).Accepted) {buffer : List UInt8} {v : Value}
    (h : (Buffer.deserialize buffer).map f = .ok v) : v.Accepted := by
  cases hread : (Buffer.deserialize buffer : Except Error α) with
  | error e => simp [hread, Except.map] at h
  | ok a =>
    obtain rfl : f a = v := by simpa [hread, Except.map] using h
    exact hf a (Buffer.of_deserialize_eq_ok hread).2

theorem accepted_of_read {kind : ObjectKind} {buffer : List UInt8} {v : Value}
    (h : read kind buffer = .ok v) : v.Accepted := by
  cases kind with
  | parameters => exact accepted_of_map parameters (fun _ hp => hp) h
  | ciphertext => exact accepted_of_map ciphertext (fun _ hc => hc) h
  | compressedCiphertext => exact accepted_of_map compressedCiphertext (fun _ hc => hc) h
  | serverKey => exact accepted_of_map serverKey (fun _ hk => hk) h
  | publicKey => exact accepted_of_map publicKey (fun _ hk => hk) h
  | compressedPublicKey => exact accepted_of_map compressedPublicKey (fun _ hk => hk) h

end Value

/-! ## Calls -/

/-- The objects at hand, those of each kind in the order in which they came. -/
structure Session where
  parameters : List Parameters := []
  clientKeys : List ClientKey := []
  serverKeys : List ServerKey := []
  publicKeys : List PublicKey := []
  compressedPublicKeys : List CompressedPublicKey := []
  ciphertexts : List Ciphertext := []
  compressedCiphertexts : List CompressedCiphertext := []

/-- A call of the library.  The object that it is made on is given by its position among those of its
kind, and noise by any samplers. -/
inductive Call (γ : Type) where
  | newParameters (p : Parameters)
  | preset (choice : Preset)
  | parametersOfKey (key : Nat)
  | generateKeys (noise : Noise γ) (parameters : Nat)
  | generateClientKey (parameters : Nat)
  | generateServerKey (noise : Noise γ) (clientKey : Nat)
  | generatePublicKey (noise : Noise γ) (clientKey : Nat)
  | generateCompressedPublicKey (noise : Noise γ) (clientKey : Nat)
  | decompressPublicKey (key : Nat)
  | encrypt (noise : Noise γ) (clientKey : Nat) (m : Bool)
  | encryptCompressed (noise : Noise γ) (clientKey : Nat) (m : Bool)
  | encryptPublic (key : Nat) (m : Bool)
  | encryptCompressedPublic (key : Nat) (m : Bool)
  | decompressCiphertext (ciphertext : Nat)
  | not (ciphertext : Nat)
  | trivialEncrypt (serverKey : Nat) (m : Bool)
  | deserialize (kind : ObjectKind) (buffer : List UInt8)

namespace Session

variable {γ : Type} [Generator γ]

/-- The session with one more object. -/
def add (s : Session) : Value → Session
  | .parameters p => { s with parameters := s.parameters ++ [p] }
  | .clientKey ck => { s with clientKeys := s.clientKeys ++ [ck] }
  | .serverKey sk => { s with serverKeys := s.serverKeys ++ [sk] }
  | .publicKey pk => { s with publicKeys := s.publicKeys ++ [pk] }
  | .compressedPublicKey pk => { s with compressedPublicKeys := s.compressedPublicKeys ++ [pk] }
  | .ciphertext c => { s with ciphertexts := s.ciphertexts ++ [c] }
  | .compressedCiphertext c => { s with compressedCiphertexts := s.compressedCiphertexts ++ [c] }

/-- The parameters of the keys at hand. -/
def keyParameters (s : Session) : List Parameters :=
  s.clientKeys.map ClientKey.params ++ s.serverKeys.map ServerKey.params ++
    s.publicKeys.map PublicKey.params ++ s.compressedPublicKeys.map CompressedPublicKey.params

/-- What a call makes.  It makes nothing if there is no object at its position, or if what it is given
is refused. -/
def perform? (s : Session) : Call γ → Option (Draw γ (List Value))
  | .newParameters p => p.checked.toOption.map fun p => return [.parameters p]
  | .preset choice => some (return [.parameters choice.parameters])
  | .parametersOfKey i => s.keyParameters[i]?.map fun p => return [.parameters p]
  | .generateKeys noise i => s.parameters[i]?.map fun p => do
    match ← generateKeysWith noise p with
    | .error _ => return []
    | .ok (ck, sk) => return [.clientKey ck, .serverKey sk]
  | .generateClientKey i => s.parameters[i]?.map fun p => do
    match ← ClientKey.generate p with
    | .error _ => return []
    | .ok ck => return [.clientKey ck]
  | .generateServerKey noise i => s.clientKeys[i]?.map fun ck => do
    return [.serverKey (← ServerKey.generateWith noise ck)]
  | .generatePublicKey noise i => s.clientKeys[i]?.map fun ck => do
    return [.publicKey (← PublicKey.generateWith noise ck)]
  | .generateCompressedPublicKey noise i => s.clientKeys[i]?.map fun ck => do
    return [.compressedPublicKey (← CompressedPublicKey.generateWith noise ck)]
  | .decompressPublicKey i => s.compressedPublicKeys[i]?.map fun pk =>
    return [.publicKey pk.decompress]
  | .encrypt noise i m => s.clientKeys[i]?.map fun ck => do
    return [.ciphertext (← ck.encryptWith noise m)]
  | .encryptCompressed noise i m => s.clientKeys[i]?.map fun ck => do
    return [.compressedCiphertext (← ck.encryptCompressedWith noise m)]
  | .encryptPublic i m => s.publicKeys[i]?.map fun pk => do
    return [.ciphertext (← pk.encrypt m)]
  | .encryptCompressedPublic i m => s.compressedPublicKeys[i]?.map fun pk => do
    return [.ciphertext (← pk.encrypt m)]
  | .decompressCiphertext i => s.compressedCiphertexts[i]?.map fun c =>
    return [.ciphertext c.decompress]
  | .not i => s.ciphertexts[i]?.map fun c => return [.ciphertext c.not]
  | .trivialEncrypt i m => s.serverKeys[i]?.map fun sk =>
    return [.ciphertext (sk.trivialEncrypt m)]
  | .deserialize kind buffer => (Value.read kind buffer).toOption.map fun v => return [v]

/-- The session after a call that is given a generator in this state. -/
def step (s : Session) (call : γ × Call γ) : Except Fault Session :=
  match s.perform? call.2 with
  | none => .ok s
  | some draw => return (← draw call.1).1.foldl add s

/-- The session after calls that follow each other, from one in which nothing is at hand. -/
def run (calls : List (γ × Call γ)) : Except Fault Session :=
  calls.foldlM step {}

/-! ## Accepted sessions -/

/-- Sessions all of whose objects pass the checks of their kinds. -/
structure Accepted (s : Session) : Prop where
  parameters : ∀ p ∈ s.parameters, p.checkShape = .ok ()
  clientKeys : ∀ ck ∈ s.clientKeys, ck.Complete
  serverKeys : ∀ sk ∈ s.serverKeys, sk.checkShape = .ok ()
  publicKeys : ∀ pk ∈ s.publicKeys, pk.checkShape = .ok ()
  compressedPublicKeys : ∀ pk ∈ s.compressedPublicKeys, pk.checkShape = .ok ()
  ciphertexts : ∀ c ∈ s.ciphertexts, c.checkShape = .ok ()
  compressedCiphertexts : ∀ c ∈ s.compressedCiphertexts, c.checkShape = .ok ()

namespace Accepted

variable {s : Session}

theorem empty : Accepted {} := by
  constructor <;> simp

theorem add (hs : s.Accepted) {v : Value} (hv : v.Accepted) : (s.add v).Accepted := by
  cases v with
  | parameters p => exact { hs with parameters := forall_mem_concat hs.parameters hv }
  | clientKey ck => exact { hs with clientKeys := forall_mem_concat hs.clientKeys hv }
  | serverKey sk => exact { hs with serverKeys := forall_mem_concat hs.serverKeys hv }
  | publicKey pk => exact { hs with publicKeys := forall_mem_concat hs.publicKeys hv }
  | compressedPublicKey pk =>
    exact { hs with compressedPublicKeys := forall_mem_concat hs.compressedPublicKeys hv }
  | ciphertext c => exact { hs with ciphertexts := forall_mem_concat hs.ciphertexts hv }
  | compressedCiphertext c =>
    exact { hs with compressedCiphertexts := forall_mem_concat hs.compressedCiphertexts hv }

theorem foldl_add (hs : s.Accepted) {values : List Value} (hvalues : ∀ v ∈ values, v.Accepted) :
    (values.foldl Session.add s).Accepted := by
  induction values generalizing s with
  | nil => exact hs
  | cons v values ih =>
    rcases List.forall_mem_cons.1 hvalues with ⟨hv, hrest⟩
    exact ih (hs.add hv) hrest

/-- Keys that pass their checks have parameters that pass theirs. -/
theorem keyParameters (hs : s.Accepted) : ∀ p ∈ s.keyParameters, p.checkShape = .ok () := by
  intro p hp
  rw [Parameters.checkShape_eq_ok_iff]
  simp only [Session.keyParameters, List.mem_append, List.mem_map] at hp
  rcases hp with ((⟨ck, hck, rfl⟩ | ⟨sk, hsk, rfl⟩) | ⟨pk, hpk, rfl⟩) | ⟨pk, hpk, rfl⟩
  · exact (hs.clientKeys ck hck).valid
  · exact (ServerKey.checkShape_eq_ok_iff.1 (hs.serverKeys sk hsk)).1
  · exact (PublicKey.checkShape_eq_ok_iff.1 (hs.publicKeys pk hpk)).1
  · exact (CompressedPublicKey.checkShape_eq_ok_iff.1 (hs.compressedPublicKeys pk hpk)).1

end Accepted

/-! ## One call -/

/-- The objects that a call makes: at least one, and all of them accepted. -/
def Yield (values : List Value) : Prop :=
  values ≠ [] ∧ ∀ v ∈ values, v.Accepted

theorem yield_one {v : Value} (hv : v.Accepted) : Yield [v] :=
  ⟨by simp, by simpa using hv⟩

theorem yield_two {v w : Value} (hv : v.Accepted) (hw : w.Accepted) : Yield [v, w] :=
  ⟨by simp, by simpa using ⟨hv, hw⟩⟩

omit [Generator γ] in
/-- A call on an object at hand makes what it makes of any object that passes the same check. -/
theorem makes_at {α : Type} {P : α → Prop} {l : List α} (hl : ∀ a ∈ l, P a) {i : Nat}
    {f : α → Draw γ (List Value)} (hf : ∀ a, P a → (f a).Makes Yield) {draw : Draw γ (List Value)}
    (h : l[i]?.map f = some draw) : draw.Makes Yield := by
  rcases Option.map_eq_some_iff.1 h with ⟨a, ha, rfl⟩
  exact hf a (hl a (List.mem_of_getElem? ha))

/-- Every call that has an object to be made on makes objects that pass their checks, from every
state of the generator. -/
theorem Accepted.perform?_makes {s : Session} (hs : s.Accepted) {call : Call γ}
    {draw : Draw γ (List Value)} (h : s.perform? call = some draw) : draw.Makes Yield := by
  cases call with
  | newParameters p =>
    cases hvalidate : p.validate with
    | error e => simp [perform?, Parameters.checked, hvalidate, Except.toOption] at h
    | ok _ =>
      obtain rfl : (return [.parameters p]) = draw := by
        simpa [perform?, Parameters.checked, hvalidate, Except.toOption] using h
      exact .pure (yield_one (Parameters.checkShape_eq_ok_iff.2
        (Parameters.validate_eq_ok_iff.1 hvalidate)))
  | preset choice =>
    cases h
    exact .pure (yield_one choice.checkShape_parameters)
  | parametersOfKey i =>
    refine makes_at hs.keyParameters ?_ h
    intro p hp
    exact .pure (yield_one hp)
  | generateKeys noise i =>
    refine makes_at hs.parameters ?_ h
    intro p hp
    refine (generateKeysWith_makes (Parameters.checkShape_eq_ok_iff.1 hp) noise).bind ?_
    rintro _ ⟨ck, sk, rfl, hck, hsk⟩
    exact .pure (yield_two hck hsk)
  | generateClientKey i =>
    refine makes_at hs.parameters ?_ h
    intro p hp
    refine (ClientKey.generate_makes (Parameters.checkShape_eq_ok_iff.1 hp)).bind ?_
    rintro _ ⟨ck, rfl, hck⟩
    exact .pure (yield_one hck)
  | generateServerKey noise i =>
    refine makes_at hs.clientKeys ?_ h
    intro ck hck
    exact (ServerKey.generateWith_makes hck noise).map _ fun _ hsk => yield_one hsk
  | generatePublicKey noise i =>
    refine makes_at hs.clientKeys ?_ h
    intro ck hck
    exact (PublicKey.generateWith_makes hck.toWellFormed noise).map _ fun _ hpk => yield_one hpk
  | generateCompressedPublicKey noise i =>
    refine makes_at hs.clientKeys ?_ h
    intro ck hck
    exact (CompressedPublicKey.generateWith_makes hck.toWellFormed noise).map _
      fun _ hpk => yield_one hpk
  | decompressPublicKey i =>
    refine makes_at hs.compressedPublicKeys ?_ h
    intro pk hpk
    exact .pure (yield_one (CompressedPublicKey.checkShape_decompress hpk))
  | encrypt noise i m =>
    refine makes_at hs.clientKeys ?_ h
    intro ck hck
    exact (ck.encryptWith_makes hck.toWellFormed noise m).map _ fun _ hc => yield_one hc
  | encryptCompressed noise i m =>
    refine makes_at hs.clientKeys ?_ h
    intro ck hck
    exact (ck.encryptCompressedWith_makes hck.toWellFormed noise m).map _ fun _ hc => yield_one hc
  | encryptPublic i m =>
    refine makes_at hs.publicKeys ?_ h
    intro pk hpk
    exact (pk.encrypt_makes hpk m).map _ fun _ hc => yield_one hc
  | encryptCompressedPublic i m =>
    refine makes_at hs.compressedPublicKeys ?_ h
    intro pk hpk
    exact (pk.encrypt_makes hpk m).map _ fun _ hc => yield_one hc
  | decompressCiphertext i =>
    refine makes_at hs.compressedCiphertexts ?_ h
    intro c hc
    exact .pure (yield_one (CompressedCiphertext.usable_of_checkShape hc).decompress.1)
  | not i =>
    refine makes_at hs.ciphertexts ?_ h
    intro c hc
    exact .pure (yield_one (Ciphertext.checkShape_not hc).1)
  | trivialEncrypt i m =>
    refine makes_at hs.serverKeys ?_ h
    intro sk hsk
    exact .pure (yield_one ((ServerKey.usable_of_checkShape hsk).trivialEncrypt m).1)
  | deserialize kind buffer =>
    cases hread : Value.read kind buffer with
    | error e => simp [perform?, hread, Except.toOption] at h
    | ok v =>
      obtain rfl : (return [v]) = draw := by simpa [perform?, hread, Except.toOption] using h
      exact .pure (yield_one (Value.accepted_of_read hread))

/-! ## Sequences of calls -/

/-- A call leaves an accepted session accepted. -/
theorem exists_step {s : Session} (hs : s.Accepted) (call : γ × Call γ) :
    ∃ s', s.step call = .ok s' ∧ s'.Accepted := by
  cases hcall : s.perform? call.2 with
  | none => exact ⟨s, by simp [step, hcall], hs⟩
  | some draw =>
    rcases hs.perform?_makes hcall call.1 with ⟨values, g', hrun, -, hvalues⟩
    exact ⟨_, by simp [step, hcall, hrun], hs.foldl_add hvalues⟩

theorem exists_foldlM_step {s : Session} (hs : s.Accepted) (calls : List (γ × Call γ)) :
    ∃ s', calls.foldlM step s = .ok s' ∧ s'.Accepted := by
  induction calls generalizing s with
  | nil => exact ⟨s, rfl, hs⟩
  | cons call calls ih =>
    rcases exists_step hs call with ⟨s₁, hstep, hs₁⟩
    rcases ih hs₁ with ⟨s₂, hrest, hs₂⟩
    exact ⟨s₂, by simp [List.foldlM_cons, hstep, hrest], hs₂⟩

/-- No sequence of calls faults, and whatever it makes passes the check of its kind: each ciphertext
has the dimension that it declares, from 1 to 65536, and each public key as many samples as its
dimension asks for.  Whatever was called before, every call that has an object to be made on makes
another one. -/
theorem run_accepted (calls : List (γ × Call γ)) :
    ∃ s, run calls = .ok s ∧ s.Accepted ∧
      (∀ c ∈ s.ciphertexts, c.lweDimension.toNat = c.sample.mask.length ∧
        1 ≤ c.sample.mask.length ∧ c.sample.mask.length ≤ 65536) ∧
      (∀ pk ∈ s.publicKeys, pk.zeros.length = publicKeySize pk.params.n ∧
        ∀ d ∈ pk.zeros, d.mask.length = pk.params.n) ∧
      (∀ pk ∈ s.compressedPublicKeys, pk.bodies.length = publicKeySize pk.params.n) ∧
      ∀ (call : Call γ) (draw : Draw γ (List Value)), s.perform? call = some draw →
        ∀ g, ∃ values g', draw g = .ok (values, g') ∧ values ≠ [] := by
  rcases exists_foldlM_step .empty calls with ⟨s, hrun, hs⟩
  refine ⟨s, hrun, hs, ?_, ?_, ?_, ?_⟩
  · intro c hc
    rcases Ciphertext.checkShape_eq_ok_iff.1 (hs.ciphertexts c hc) with ⟨hrange, hdeclared⟩
    rw [hdeclared] at hrange
    exact ⟨hdeclared, hrange⟩
  · intro pk hpk
    rcases PublicKey.checkShape_eq_ok_iff.1 (hs.publicKeys pk hpk) with ⟨-, hlength, hdims⟩
    exact ⟨hlength.symm, fun d hd => (hdims d hd).symm⟩
  · intro pk hpk
    exact (CompressedPublicKey.checkShape_eq_ok_iff.1 (hs.compressedPublicKeys pk hpk)).2.symm
  · intro call draw hcall g
    rcases hs.perform?_makes hcall g with ⟨values, g', hrun, hne, -⟩
    exact ⟨values, g', hrun, hne⟩

/-- A session of the smallest dimension, in which parameters without a dimension and a buffer that
declares none are refused, and a call on an object that is not there makes nothing. -/
theorem run_accepted_smallest :
    let p : Parameters :=
      ⟨1, 1, 2, ⟨0x3f50000000000000⟩, ⟨0x3f40000000000000⟩, 4, 1, 3, 1⟩
    let start : CyclicWords := ⟨#[0x80000003, 0x10000005, 0xc0000001], 0⟩
    let noise : Noise CyclicWords := ⟨Sampler.uniform, Sampler.binary⟩
    let calls : List (Call CyclicWords) := [.newParameters p,
      .newParameters { p with lweDimension := 0 }, .generateClientKey 0,
      .generateCompressedPublicKey noise 0, .decompressPublicKey 0, .encryptPublic 0 true,
      .encryptCompressed noise 0 true, .decompressCiphertext 0, .not 1, .not 7,
      .deserialize .ciphertext (Buffer.serialize (⟨2, [1, 2], 3⟩ : Ciphertext)),
      .deserialize .ciphertext (Buffer.serialize (⟨0, [], 3⟩ : Ciphertext))]
    ∃ s, run (calls.map fun call => (start, call)) = .ok s ∧ s.Accepted ∧
      s.parameters = [p] ∧ s.ciphertexts.map (fun c => c.sample.mask.length) = [1, 1, 1, 2] ∧
      (∃ pk, s.publicKeys = [pk] ∧ pk.zeros.length = publicKeySize pk.params.n) ∧
      (∀ c ∈ s.ciphertexts, c.lweDimension.toNat = c.sample.mask.length) := by
  intro p start noise calls
  obtain ⟨s, hrun, hs, hciphertexts, hpublicKeys, -⟩ :=
    run_accepted (calls.map fun call => (start, call))
  have hcounts : (run (calls.map fun call => (start, call))).toOption.map (fun s =>
      (s.parameters, s.ciphertexts.map (fun c => c.sample.mask.length), s.publicKeys.length)) =
        some ([p], [1, 1, 1, 2], 1) := by decide +kernel
  simp only [hrun, Except.toOption, Option.map_some, Option.some.injEq, Prod.mk.injEq] at hcounts
  rcases hcounts with ⟨hparameters, hmasks, hkeys⟩
  rcases List.length_eq_one_iff.1 hkeys with ⟨pk, hpk⟩
  refine ⟨s, hrun, hs, hparameters, hmasks, ⟨pk, hpk, ?_⟩, fun c hc => (hciphertexts c hc).1⟩
  exact (hpublicKeys pk (by simp [hpk])).1

end Session

end TorusFHE
