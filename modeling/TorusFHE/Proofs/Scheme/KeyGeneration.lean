import TorusFHE.Proofs.Glwe.Decryption
import TorusFHE.Proofs.Scheme.ClientKey
import TorusFHE.Scheme.ServerKey

/-!
# Generation of client keys

Valid parameters are all that the generation of a client key needs.  It then returns both keys with
the sizes that the parameters prescribe, and the ring key can be multiplied with every mask of its
shape by the Fourier transform, whatever the rounding of the numbers that the transform is computed
with.

* `ClientKey.Complete`: what holds of both keys of every generated client key;
* `ClientKey.exists_generate`: generation succeeds;
* `ClientKey.binary_of_generate`: all that it draws is zero or one;
* `ServerKey.exists_maskProduct`: the product with the ring key.
-/

namespace TorusFHE

/-! ## Gadgets of parameters -/

theorem Gadget.exists_ofSizes {logBase levels : Nat}
    (h : 0 < logBase ∧ 0 < levels ∧ logBase * levels ≤ 32) :
    ∃ g, ofSizes logBase levels = .ok g ∧ g.logBase = logBase ∧ g.levels = levels :=
  ⟨⟨logBase, levels, h.1, h.2.1, h.2.2⟩, dif_pos h, rfl, rfl⟩

theorem Parameters.Valid.exists_pbsGadget {p : Parameters} (hp : p.Valid) :
    ∃ g, p.pbsGadget = .ok g ∧ g.logBase = p.pbsBaseLog.toNat ∧ g.levels = p.pbsLevel.toNat :=
  Gadget.exists_ofSizes hp.pbsSizes

theorem Parameters.Valid.exists_ksGadget {p : Parameters} (hp : p.Valid) :
    ∃ g, p.ksGadget = .ok g ∧ g.logBase = p.ksBaseLog.toNat ∧ g.levels = p.ksLevel.toNat :=
  Gadget.exists_ofSizes hp.ksSizes

/-! ## Client keys -/

theorem Sampler.binary_eq_zero_or_one {γ : Type} [Generator γ] (g : γ) :
    (binary g).1 = 0 ∨ (binary g).1 = 1 := by
  by_cases h : (bit g).1 = true <;> simp [binary, Torus.ofBool, h]

namespace ClientKey

/-- Keys of valid parameters, both of the sizes that these prescribe. -/
structure Complete (ck : ClientKey) : Prop extends ck.WellFormed where
  rank : ck.glweKey.polys.length = ck.params.k
  degree : ∀ q ∈ ck.glweKey.polys, q.size = ck.params.degree

variable {δ : Type} [Generator δ] {p : Parameters}

/-- What is drawn for valid parameters. -/
theorem generate_eq_ok (hp : p.Valid) (start : δ) :
    let lwe := LweKey.generate p.n start
    let polys := (Polynomial.sampler p.degree Sampler.binary).repeated p.k lwe.2
    generate p start = .ok (.ok ⟨lwe.1, ⟨polys.1⟩, p⟩, polys.2) := by
  have hvalidate : p.validate = .ok () := Parameters.validate_eq_ok_iff.2 hp
  simp [generate, hvalidate, GlweKey.generate_eq_sample hp.isPowerOfTwo]

/-- Valid parameters have a client key, from every state of every generator. -/
theorem exists_generate (hp : p.Valid) (start : δ) :
    ∃ ck final, generate p start = .ok (.ok ck, final) ∧ ck.Complete ∧ ck.params = p := by
  refine ⟨_, _, generate_eq_ok hp start, ⟨⟨hp, ?_⟩, ?_, ?_⟩, rfl⟩
  -- Both keys have as many entries as were drawn.
  · exact Sampler.length_repeated _ _ _
  · exact Sampler.length_repeated _ _ _
  · exact Sampler.forall_mem_repeated _ (Polynomial.size_sampler _) _ _

/-- Every generated client key is complete. -/
theorem complete_of_generate {ck : ClientKey} {start final : δ}
    (h : generate p start = .ok (.ok ck, final)) : ck.Complete ∧ ck.params = p := by
  rcases wellFormed_of_generate h with ⟨hck, hparams⟩
  rcases exists_generate (hparams ▸ hck.valid) start with ⟨ck', final', hrun, hcomplete, -⟩
  -- There is only one key from a state, so the one at hand is complete.
  cases hrun.symm.trans h
  exact ⟨hcomplete, hparams⟩

/-- Every entry of both keys is zero or one. -/
structure Binary (ck : ClientKey) : Prop where
  lwe : ∀ s ∈ ck.lweKey.coeffs, s = 0 ∨ s = 1
  glwe : ∀ q ∈ ck.glweKey.polys, ∀ s ∈ q.coeffs, s = 0 ∨ s = 1

/-- Every generated client key is binary. -/
theorem binary_of_generate {ck : ClientKey} {start final : δ}
    (h : generate p start = .ok (.ok ck, final)) : ck.Binary := by
  rcases wellFormed_of_generate h with ⟨hck, hparams⟩
  cases (generate_eq_ok (hparams ▸ hck.valid) start).symm.trans h
  have hcoeffs : ∀ (n : Nat) (g : δ), ∀ s ∈ (Sampler.binary.repeated n g).1, s = 0 ∨ s = 1 :=
    fun n g => Sampler.forall_mem_repeated _ Sampler.binary_eq_zero_or_one n g
  exact ⟨hcoeffs _ _, Sampler.forall_mem_repeated _ (fun g => hcoeffs _ g) _ _⟩

end ClientKey

/-! ## The product of masks and a ring key -/

/-- The ring key of a client can be multiplied with masks of its shape. -/
theorem ServerKey.exists_maskProduct {ck : ClientKey} (hck : ck.Complete) :
    ∃ product, maskProduct ck = .ok product ∧ product.rank = ck.params.k ∧
      product.degree = ck.params.degree ∧ product.Total := by
  rcases Transform.exists_ofSize (κ := ComplexFloat) hck.valid.polynomialSize.1
    hck.valid.isPowerOfTwo with ⟨depth, hdepth, htransform⟩
  have hsize : ∀ q ∈ ck.glweKey.polys, q.size = 2 ^ (depth + 1) :=
    fun q hq => (hck.degree q hq).trans hdepth
  rcases Glwe.exists_maskProduct (κ := ComplexFloat) hsize with
    ⟨product, hrun, hrank, hdegree, htotal⟩
  refine ⟨product, ?_, hrank.trans hck.rank, hdegree.trans hdepth.symm, htotal⟩
  rw [maskProduct, htransform, ok_bind, hrun]

end TorusFHE
