import TorusFHE.Proofs.Scheme.KeyPair
import TorusFHE.Proofs.Scheme.PublicKey
import TorusFHE.Proofs.Wire.Buffer

/-!
# Use of objects that were read

Whoever sends a buffer chooses every length in it.  The shape check compares all those that a later
operation combines with each other, so none of them faults on an object that was read.

* `Ciphertext.Usable` and the like: what can be done with an object of each kind;
* `Ciphertext.usable_of_checkShape` and the like: the shape check is enough for it;
* `Buffer.usable_of_deserialize`: whatever was read can be used.

Samples of the right dimension are read under the key of zeros, where all of them have a phase; that
switched samples have one too gives the dimensions of these.
-/

namespace TorusFHE

/-- A sample of an admitted dimension makes a ciphertext that passes its check. -/
theorem Ciphertext.checkShape_ofSample {c : LweSample}
    (h : 0 < c.dimension ∧ c.dimension ≤ Parameters.maxLweDimension) :
    (ofSample c).checkShape = .ok () := by
  have hlt : c.dimension < UInt64.size := h.2.trans_lt (by decide)
  have hdeclared : (UInt64.ofNat c.dimension).toNat = c.dimension :=
    UInt64.toNat_ofNat_of_lt' hlt
  rw [checkShape_eq_ok_iff, ofSample, hdeclared]
  exact ⟨h, rfl⟩

theorem Ciphertext.checkShape_ofSample_of_valid {p : Parameters} (hp : p.Valid) {c : LweSample}
    (hdim : c.dimension = p.n) : (ofSample c).checkShape = .ok () := by
  apply checkShape_ofSample
  rw [hdim]
  exact hp.lweDimension

/-- Negation keeps the dimension, and the ciphertext declares it anew. -/
theorem Ciphertext.checkShape_not {c : Ciphertext} (h : c.checkShape = .ok ()) :
    c.not.checkShape = .ok () ∧ c.not.sample.dimension = c.sample.dimension := by
  rcases checkShape_eq_ok_iff.1 h with ⟨hrange, hdeclared⟩
  have hneg : c.sample.neg.dimension = c.sample.dimension := c.sample.dimension_neg
  rw [hdeclared, ← hneg] at hrange
  exact ⟨checkShape_ofSample hrange, hneg⟩

/-! ## What can be done with an object -/

/-- A ciphertext decrypts under a key of its dimension, and under any other it is refused for its
dimension.  It can be negated. -/
structure Ciphertext.Usable (ck : ClientKey) (c : Ciphertext) : Prop where
  declared : c.lweDimension.toNat = c.sample.dimension
  decrypt : c.sample.dimension = ck.params.n → ∃ m, ck.decrypt c = .ok (.ok m)
  mismatch : c.sample.dimension ≠ ck.params.n →
    ck.decrypt c = .ok (.error (.dimensionMismatch ck.params.n c.sample.dimension))
  not : c.not.checkShape = .ok () ∧ c.not.sample.dimension = c.sample.dimension

/-- A compressed ciphertext expands to the dimension that it declares. -/
structure CompressedCiphertext.Usable (c : CompressedCiphertext) : Prop where
  declared : 1 ≤ c.lweDimension.toNat ∧ c.lweDimension.toNat ≤ 65536
  decompress : c.decompress.checkShape = .ok () ∧
    c.decompress.sample.mask.length = c.lweDimension.toNat

/-- A server key encrypts constants, and switches every sample under its ring key.  Its parameters
lie in the domain of whatever is done with them. -/
structure ServerKey.Usable (sk : ServerKey) : Prop where
  inDomain : sk.params.InDomain
  trivialEncrypt : ∀ m, (sk.trivialEncrypt m).checkShape = .ok () ∧
    (sk.trivialEncrypt m).sample.dimension = sk.params.n
  keySwitch : ∀ c : LweSample, c.dimension = sk.params.k * sk.params.degree →
    ∃ c', sk.keySwitch c = .ok c' ∧ c'.dimension = sk.params.n

/-- A public key encrypts every bit, from every state of every generator. -/
structure PublicKey.Usable (pk : PublicKey) : Prop where
  encrypt : ∀ (γ : Type) [Generator γ] (m : Bool) (g : γ),
    ∃ c g', pk.encrypt m g = .ok (c, g') ∧ c.checkShape = .ok () ∧
      c.sample.dimension = pk.params.n

/-- A compressed public key encrypts every bit, and expands to a public key that passes its own
check. -/
structure CompressedPublicKey.Usable (pk : CompressedPublicKey) : Prop where
  encrypt : ∀ (γ : Type) [Generator γ] (m : Bool) (g : γ),
    ∃ c g', pk.encrypt m g = .ok (c, g') ∧ c.checkShape = .ok () ∧
      c.sample.dimension = pk.params.n
  decompress : pk.decompress.checkShape = .ok () ∧ pk.decompress.Usable

/-- Parameters make both keys of an instance, from every state of every generator and whatever the
noise.  No weight of their gadgets is refused on the way, and no other number of them. -/
structure Parameters.Usable (p : Parameters) : Prop where
  inDomain : p.InDomain
  generateKeys : ∀ (γ : Type) [Generator γ] (noise : Noise γ) (g : γ),
    ∃ ck sk g', generateKeysWith noise p g = .ok (.ok (ck, sk), g') ∧
      ck.params = p ∧ sk.params = p

/-! ## The shape check is enough -/

theorem Ciphertext.usable_of_checkShape {ck : ClientKey} (hck : ck.WellFormed) {c : Ciphertext}
    (h : c.checkShape = .ok ()) : c.Usable ck := by
  have hdeclared := (checkShape_eq_ok_iff.1 h).2
  refine ⟨hdeclared, ?_, ?_, checkShape_not h⟩
  · intro hdim
    -- A sample of the dimension of the key has a phase, and decryption reads the bit off it.
    have hphase := LweSample.phase_eq_ok_iff.2 ⟨hdim.trans hck.dimension.symm, rfl⟩
    exact ⟨_, ClientKey.decrypt_of_phase (hdeclared.trans hdim) hdim hphase⟩
  · exact ClientKey.decrypt_of_dimension_ne

theorem CompressedCiphertext.usable_of_checkShape {c : CompressedCiphertext}
    (h : c.checkShape = .ok ()) : c.Usable := by
  have hrange := checkShape_eq_ok_iff.1 h
  have hdim : (c.sample.expand c.lweDimension.toNat).dimension = c.lweDimension.toNat :=
    Sampler.length_repeated _ _ _
  refine ⟨hrange, ?_, hdim⟩
  rw [← hdim] at hrange
  exact Ciphertext.checkShape_ofSample hrange

theorem ServerKey.usable_of_checkShape {sk : ServerKey} (h : sk.checkShape = .ok ()) :
    sk.Usable := by
  rcases checkShape_eq_ok_iff.1 h with ⟨hvalid, -, -, hswitching⟩
  rcases KeySwitchingKey.checkShape_eq_ok_iff.1 hswitching with ⟨hcount, hdims⟩
  refine ⟨hvalid.inDomain, ?_, ?_⟩
  · intro m
    have hdim : (LweSample.trivial sk.params.n (encodeBit m)).dimension = sk.params.n :=
      List.length_replicate
    exact ⟨Ciphertext.checkShape_ofSample_of_valid hvalid hdim, hdim⟩
  · intro c hc
    rcases hvalid.exists_ksGadget with ⟨g, hg, -, hlevels⟩
    -- The sum over the digits of an empty mask would have no dimension.
    have hne : c.mask ≠ [] := by
      have hpos : 0 < sk.params.k * sk.params.degree :=
        Nat.mul_pos hvalid.glweDimension.1 (Nat.pos_of_isPowerOfTwo hvalid.isPowerOfTwo)
      exact List.ne_nil_of_length_pos (hpos.trans_eq hc.symm)
    -- There is one sample for each digit of the mask, and all of them have one dimension.
    have htarget : ∀ d ∈ sk.keySwitchingKey.samples,
        d.dimension = (LweKey.zeros sk.params.n).dimension := by
      intro d hd
      rw [LweKey.dimension_zeros, hdims d hd]
    rcases LweSample.exists_havePhases htarget with ⟨xs, hxs⟩
    have hdigits : xs.length = c.mask.length * g.levels := by
      rw [← hxs.length_eq, ← hcount, hlevels, ← hc]
      rfl
    rcases KeySwitchingKey.switch_of_havePhases g hxs hne hdigits with ⟨c', hswitch, hphase⟩
    refine ⟨c', ?_, ?_⟩
    · rw [keySwitch, hg, ok_bind, hswitch]
    · rw [LweSample.dimension_of_phase hphase, LweKey.dimension_zeros]

theorem PublicKey.usable_of_checkShape {pk : PublicKey} (h : pk.checkShape = .ok ()) :
    pk.Usable := by
  rcases checkShape_eq_ok_iff.1 h with ⟨hvalid, -, hdims⟩
  constructor
  intro γ _ m g
  rcases pk.exists_encrypt (fun d hd => (hdims d hd).symm) m g with ⟨c, hencrypt, hdim⟩
  exact ⟨_, _, hencrypt, Ciphertext.checkShape_ofSample_of_valid hvalid hdim, hdim⟩

theorem CompressedPublicKey.checkShape_decompress {pk : CompressedPublicKey}
    (h : pk.checkShape = .ok ()) : pk.decompress.checkShape = .ok () := by
  rcases checkShape_eq_ok_iff.1 h with ⟨hvalid, hlength⟩
  rw [PublicKey.checkShape_eq_ok_iff]
  refine ⟨hvalid, ?_, ?_⟩
  · rw [length_zeros_decompress]
    exact hlength
  · intro c hc
    exact (dimension_of_mem_zeros_decompress hc).symm

theorem CompressedPublicKey.usable_of_checkShape {pk : CompressedPublicKey}
    (h : pk.checkShape = .ok ()) : pk.Usable := by
  have hshape := checkShape_decompress h
  have husable := PublicKey.usable_of_checkShape hshape
  refine ⟨?_, hshape, husable⟩
  intro γ _ m g
  -- Encryption expands the masks as decompression does.
  rw [encrypt_eq_encrypt_decompress]
  exact husable.encrypt γ m g

theorem Parameters.usable_of_checkShape {p : Parameters} (h : p.checkShape = .ok ()) :
    p.Usable := by
  have hvalid := checkShape_eq_ok_iff.1 h
  refine ⟨hvalid.inDomain, ?_⟩
  intro γ _ noise g
  rcases exists_generateKeysWith hvalid noise g with ⟨ck, sk, g', hrun, hkeys⟩
  exact ⟨ck, sk, g', hrun, hkeys.clientParams, hkeys.serverParams⟩

/-! ## Whatever was read can be used -/

namespace Buffer

/-- Nothing that was read from a buffer makes a later operation fault, whatever its kind. -/
theorem usable_of_deserialize {δ : Type} [Generator δ] {p : Parameters} {ck : ClientKey}
    {start final : δ} (hck : ClientKey.generate p start = .ok (.ok ck, final))
    (buffer : List UInt8) :
    (∀ c : Ciphertext, deserialize buffer = .ok c → c.Usable ck) ∧
    (∀ c : CompressedCiphertext, deserialize buffer = .ok c → c.Usable) ∧
    (∀ sk : ServerKey, deserialize buffer = .ok sk → sk.Usable) ∧
    (∀ pk : PublicKey, deserialize buffer = .ok pk → pk.Usable) ∧
    (∀ pk : CompressedPublicKey, deserialize buffer = .ok pk → pk.Usable) ∧
    (∀ q : Parameters, deserialize buffer = .ok q → q.Usable) := by
  refine ⟨?_, ?_, ?_, ?_, ?_, ?_⟩
  · intro c h
    exact Ciphertext.usable_of_checkShape (ClientKey.wellFormed_of_generate hck).1
      (of_deserialize_eq_ok h).2
  · intro c h
    exact CompressedCiphertext.usable_of_checkShape (of_deserialize_eq_ok h).2
  · intro sk h
    exact ServerKey.usable_of_checkShape (of_deserialize_eq_ok h).2
  · intro pk h
    exact PublicKey.usable_of_checkShape (of_deserialize_eq_ok h).2
  · intro pk h
    exact CompressedPublicKey.usable_of_checkShape (of_deserialize_eq_ok h).2
  · intro q h
    exact Parameters.usable_of_checkShape (of_deserialize_eq_ok h).2

/-- A buffer of each kind: two ciphertexts, of the dimension of the key and of another one, and
objects of the smallest dimension. -/
theorem usable_of_deserialize_smallest :
    let p : Parameters :=
      ⟨2, 1, 2, ⟨0x3f50000000000000⟩, ⟨0x3f50000000000000⟩, 4, 1, 4, 1⟩
    let start : CyclicWords := ⟨#[0x80000003, 0x10000005, 0xc0000001], 0⟩
    let ck : ClientKey := ⟨⟨[1, 0]⟩, ⟨[⟨[1, 1]⟩]⟩, p⟩
    let c : Ciphertext := ⟨2, [⟨0x12345678⟩, ⟨0xffffffff⟩], ⟨0x20000000⟩⟩
    let c' : Ciphertext := ⟨1, [⟨0x12345678⟩], ⟨0x20000000⟩⟩
    let d : CompressedCiphertext := ⟨3, ⟨⟨List.replicate 32 1, rfl⟩, ⟨7⟩⟩⟩
    let q : Parameters :=
      ⟨1, 1, 2, ⟨0x3f50000000000000⟩, ⟨0x3f40000000000000⟩, 4, 1, 3, 1⟩
    let row : GlweSample := ⟨[⟨[⟨5⟩, ⟨0xffffffff⟩]⟩], ⟨[⟨0x20000000⟩, ⟨7⟩]⟩⟩
    let sk : ServerKey := ⟨[⟨[row, row]⟩], ⟨[⟨[⟨9⟩], ⟨11⟩⟩, ⟨[⟨13⟩], ⟨0x80000000⟩⟩]⟩, q⟩
    let pk : PublicKey := ⟨List.replicate 192 ⟨[⟨5⟩], ⟨7⟩⟩, q⟩
    let cpk : CompressedPublicKey := ⟨⟨List.replicate 32 1, rfl⟩, List.replicate 192 ⟨7⟩, q⟩
    ClientKey.generate p start = .ok (.ok ck, ⟨start.words, 1⟩) ∧
      (deserialize (serialize c) = .ok c ∧ ∃ m, ck.decrypt c = .ok (.ok m)) ∧
      (deserialize (serialize c') = .ok c' ∧
        ck.decrypt c' = .ok (.error (.dimensionMismatch 2 1))) ∧
      (deserialize (serialize d) = .ok d ∧ d.decompress.sample.mask.length = 3) ∧
      (deserialize (serialize sk) = .ok sk ∧
        ∃ e, sk.keySwitch ⟨[⟨1⟩, ⟨2⟩], ⟨3⟩⟩ = .ok e ∧ e.dimension = 1) ∧
      (deserialize (serialize pk) = .ok pk ∧
        ∃ e g, pk.encrypt true start = .ok (e, g) ∧ e.sample.dimension = 1) ∧
      (deserialize (serialize cpk) = .ok cpk ∧ cpk.decompress.checkShape = .ok ()) ∧
      deserialize (serialize q) = .ok q ∧
        ∃ ck' sk' g, generateKeysWith q.noise q start = .ok (.ok (ck', sk'), g) := by
  intro p start ck c c' d q row sk pk cpk
  have hp : p.Valid := by decide +kernel
  have hq : q.Valid := by decide +kernel
  have hkey : ClientKey.generate p start = .ok (.ok ck, ⟨start.words, 1⟩) := by
    rw [ClientKey.generate, Parameters.validate_eq_ok_iff.2 hp]
    with_unfolding_all rfl
  have hsk : sk.checkShape = .ok () := by
    rw [ServerKey.checkShape, Parameters.checkShape_eq_ok_iff.2 hq]
    rfl
  have hpk : pk.checkShape = .ok () := by
    refine PublicKey.checkShape_eq_ok_iff.2 ⟨hq, rfl, ?_⟩
    intro e he
    rw [List.eq_of_mem_replicate he]
    rfl
  have hcpk : cpk.checkShape = .ok () := CompressedPublicKey.checkShape_eq_ok_iff.2 ⟨hq, rfl⟩
  have hc : deserialize (serialize c) = .ok c :=
    deserialize_serialize (Ciphertext.fits_of_checkShape rfl) rfl
  have hc' : deserialize (serialize c') = .ok c' :=
    deserialize_serialize (Ciphertext.fits_of_checkShape rfl) rfl
  have hd : deserialize (serialize d) = .ok d :=
    deserialize_serialize (fits_compressedCiphertext d) rfl
  have hreadServer : deserialize (serialize sk) = .ok sk :=
    deserialize_serialize (ServerKey.fits_of_checkShape hsk) hsk
  have hreadPublic : deserialize (serialize pk) = .ok pk :=
    deserialize_serialize (PublicKey.fits_of_checkShape hpk) hpk
  have hreadCompressed : deserialize (serialize cpk) = .ok cpk :=
    deserialize_serialize (CompressedPublicKey.fits_of_checkShape hcpk) hcpk
  have hreadParameters : deserialize (serialize q) = .ok q :=
    deserialize_serialize (fits_parameters q) (Parameters.checkShape_eq_ok_iff.2 hq)
  refine ⟨hkey, ⟨hc, ?_⟩, ⟨hc', ?_⟩, ⟨hd, ?_⟩, ⟨hreadServer, ?_⟩, ⟨hreadPublic, ?_⟩,
    ⟨hreadCompressed, ?_⟩, hreadParameters, ?_⟩
  · exact ((usable_of_deserialize hkey _).1 c hc).decrypt rfl
  · exact ((usable_of_deserialize hkey _).1 c' hc').mismatch (by decide)
  · exact ((usable_of_deserialize hkey _).2.1 d hd).decompress.2
  · exact ((usable_of_deserialize hkey _).2.2.1 sk hreadServer).keySwitch _ rfl
  · rcases ((usable_of_deserialize hkey _).2.2.2.1 pk hreadPublic).encrypt CyclicWords true start
      with ⟨e, g, hrun, -, hdim⟩
    exact ⟨e, g, hrun, hdim⟩
  · exact ((usable_of_deserialize hkey _).2.2.2.2.1 cpk hreadCompressed).decompress.1
  · rcases ((usable_of_deserialize hkey _).2.2.2.2.2 q hreadParameters).generateKeys CyclicWords
      q.noise start with ⟨ck', sk', g, hrun, -⟩
    exact ⟨ck', sk', g, hrun⟩

end Buffer

end TorusFHE
