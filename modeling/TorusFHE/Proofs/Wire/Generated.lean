import TorusFHE.Proofs.Scheme.Derivation
import TorusFHE.Proofs.Scheme.KeyPair
import TorusFHE.Proofs.Wire.Usable
import TorusFHE.Scheme.Preset

/-!
# Shapes of generated objects

Generation and encryption count what they draw, and the shape check counts what it is given.  Both
count by the parameters, so whatever is made for a complete client key passes its check, with any
noise and from every state of every generator.

* `ServerKey.generateWith_makes`, `PublicKey.generateWith_makes` and
  `CompressedPublicKey.generateWith_makes`: keys;
* `ClientKey.encryptWith_makes` and `ClientKey.encryptCompressedWith_makes`: ciphertexts;
* `Preset.checkShape_parameters`: the predefined parameters.
-/

namespace TorusFHE

variable {γ : Type} [Generator γ] {p : Parameters} {ck : ClientKey}

theorem Preset.checkShape_parameters (choice : Preset) :
    choice.parameters.checkShape = .ok () := by
  rw [Parameters.checkShape_eq_ok_iff]
  cases choice <;> decide +kernel

/-! ## Server keys -/

theorem GlweSample.Shaped.checkShape {c : GlweSample} (h : c.Shaped p.k p.degree) :
    c.checkShape p = .ok () := by
  refine GlweSample.checkShape_eq_ok_iff.2 ⟨h.rank.symm, ?_⟩
  intro q hq
  rcases List.mem_append.1 hq with hmask | hbody
  · exact (h.mask q hmask).symm
  · cases List.mem_singleton.1 hbody
    exact h.body.symm

/-- The prescribed sizes are the ones that the check asks for. -/
theorem ServerKey.Sized.checkShape {sk : ServerKey} (hp : sk.params.Valid)
    (h : sk.Sized sk.params) : sk.checkShape = .ok () := by
  have hrows : ∀ c ∈ sk.bootstrappingKey, c.checkShape sk.params = .ok () := fun c hc =>
    GgswSample.checkShape_eq_ok_iff.2
      ⟨(h.rows c hc).symm, fun row hrow => (h.shaped c hc row hrow).checkShape⟩
  have hswitching : sk.keySwitchingKey.checkShape sk.params = .ok () :=
    KeySwitchingKey.checkShape_eq_ok_iff.2
      ⟨h.keySwitchingKey.symm, fun d hd => (h.samples d hd).symm⟩
  exact ServerKey.checkShape_eq_ok_iff.2 ⟨hp, h.bootstrappingKey.symm, hrows, hswitching⟩

theorem ServerKey.generateWith_makes (hck : ck.Complete) (noise : Noise γ) :
    (generateWith noise ck).Makes fun sk => sk.checkShape = .ok () := by
  intro g
  rcases exists_generateWith hck noise g with ⟨sk, hrun, hparams, hsized⟩
  rw [← hparams] at hsized
  exact ⟨sk, _, hrun, hsized.checkShape (hparams ▸ hck.valid)⟩

theorem ClientKey.generate_makes (hp : p.Valid) :
    (generate p : Draw γ (Except Error ClientKey)).Makes fun result =>
      ∃ ck, result = .ok ck ∧ ck.Complete := by
  intro g
  rcases exists_generate hp g with ⟨ck, g', hrun, hck, -⟩
  exact ⟨_, g', hrun, ck, rfl, hck⟩

/-- Of a pair of keys, the server key passes its check, and the client key is complete. -/
theorem generateKeysWith_makes (hp : p.Valid) (noise : Noise γ) :
    (generateKeysWith noise p).Makes fun result =>
      ∃ ck sk, result = .ok (ck, sk) ∧ ck.Complete ∧ sk.checkShape = .ok () := by
  intro g
  rcases exists_generateKeysWith hp noise g with ⟨ck, sk, g', hrun, hkeys⟩
  have hsized := hkeys.sized
  rw [← hkeys.serverParams] at hsized
  exact ⟨_, g', hrun, ck, sk, rfl, hkeys.complete,
    hsized.checkShape (hkeys.serverParams ▸ hp)⟩

/-! ## Public keys -/

theorem PublicKey.generateWith_makes (hck : ck.WellFormed) (noise : Noise γ) :
    (generateWith noise ck).Makes fun pk => pk.checkShape = .ok () := by
  intro g
  rcases generateWith_phases noise ck g with ⟨pk, hrun, hparams, hphases⟩
  -- There is one sample for each noise, and each has a phase under the client key.
  have hlength : pk.zeros.length = publicKeySize ck.params.n :=
    hphases.length_eq.trans (length_noises noise ck g)
  have hdims : ∀ d ∈ pk.zeros, d.dimension = ck.params.n := fun d hd =>
    (LweSample.dimension_of_mem_of_havePhases hphases hd).trans hck.dimension
  refine ⟨pk, _, hrun, checkShape_eq_ok_iff.2 ?_⟩
  rw [hparams]
  exact ⟨hck.valid, hlength.symm, fun d hd => (hdims d hd).symm⟩

theorem CompressedPublicKey.generateWith_makes (hck : ck.WellFormed) (noise : Noise γ) :
    (generateWith noise ck).Makes fun pk => pk.checkShape = .ok () := by
  intro g
  rcases generateWith_phases hck noise g with ⟨pk, hrun, hparams, hphases⟩
  have hlength : pk.bodies.length = publicKeySize ck.params.n := by
    rw [← pk.length_zeros_decompress, hphases.length_eq, length_noises]
  refine ⟨pk, _, hrun, checkShape_eq_ok_iff.2 ?_⟩
  rw [hparams]
  exact ⟨hck.valid, hlength.symm⟩

/-! ## Ciphertexts -/

theorem PublicKey.encrypt_makes {pk : PublicKey} (h : pk.checkShape = .ok ()) (m : Bool) :
    (pk.encrypt m : Draw γ Ciphertext).Makes fun c => c.checkShape = .ok () := by
  intro g
  rcases (usable_of_checkShape h).encrypt γ m g with ⟨c, g', hrun, hshape, -⟩
  exact ⟨c, g', hrun, hshape⟩

theorem CompressedPublicKey.encrypt_makes {pk : CompressedPublicKey} (h : pk.checkShape = .ok ())
    (m : Bool) : (pk.encrypt m : Draw γ Ciphertext).Makes fun c => c.checkShape = .ok () := by
  rw [encrypt_eq_encrypt_decompress]
  exact PublicKey.encrypt_makes (checkShape_decompress h) m

theorem ClientKey.encryptWith_makes (hck : ck.WellFormed) (noise : Noise γ) (m : Bool) :
    (ck.encryptWith noise m).Makes fun c => c.checkShape = .ok () := by
  intro g
  rcases encryptWith_hasPhase hck noise m g with ⟨c, hrun, hphase⟩
  exact ⟨c, _, hrun, hphase.checkShape hck⟩

/-- Expansion declares the dimension that was declared before. -/
theorem CompressedCiphertext.lweDimension_decompress (c : CompressedCiphertext) :
    c.decompress.lweDimension = c.lweDimension := by
  have hdim : (c.sample.expand c.lweDimension.toNat).dimension = c.lweDimension.toNat :=
    Sampler.length_repeated _ _ _
  rw [decompress, Ciphertext.ofSample, hdim, UInt64.ofNat_toNat]

theorem ClientKey.encryptCompressedWith_makes (hck : ck.WellFormed) (noise : Noise γ) (m : Bool) :
    (ck.encryptCompressedWith noise m).Makes fun c => c.checkShape = .ok () := by
  intro g
  rcases encryptCompressedWith_hasPhase hck noise m g with ⟨c, hrun, hphase⟩
  have hdeclared : c.lweDimension.toNat = ck.params.n := by
    rw [← c.lweDimension_decompress]
    exact hphase.declared
  refine ⟨c, _, hrun, CompressedCiphertext.checkShape_eq_ok_iff.2 ?_⟩
  rw [hdeclared]
  exact hck.valid.lweDimension

end TorusFHE
