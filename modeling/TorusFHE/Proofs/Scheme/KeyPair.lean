import TorusFHE.Proofs.Scheme.ServerKey

/-!
# Generation of key pairs

Any nine numbers may be handed to the generation of keys.  It validates them before it draws, and
what is drawn afterwards is combined under assertions that are spread over all of its parts: on the
gadgets and their weights, on the size of the transform and of every polynomial, on the lengths of
lists.  Validation implies all of them, so that a pair of keys is either refused for the error of
validation, with nothing drawn, or made in full.

* `Parameters.InDomain`: what the assertions ask of parameters;
* `IsKeyPair`: the two keys of an instance;
* `exists_generateKeysWith`: valid parameters have both keys;
* `generateKeysWith_all_or_nothing`: the outcomes of generation, for any parameters.
-/

namespace TorusFHE

/-! ## Operands -/

/-- Parameters whose numbers lie in the domain of whatever generation does with them: there are two
gadgets without a refused weight, there is a transform, lists of the prescribed size are polynomials,
and the products of sizes are numbers of 64 bits. -/
structure Parameters.InDomain (p : Parameters) : Prop where
  pbsWeights : ∃ g, p.pbsGadget = .ok g ∧ g.checkedBases = .ok g.bases
  ksWeights : ∃ g, p.ksGadget = .ok g ∧ g.checkedBases = .ok g.bases
  transform : ∃ t : Transform ComplexFloat, Transform.ofSize p.degree = .ok t ∧ t.size = p.degree
  polynomial : ∀ v : TorusVec, v.length = p.degree → Polynomial.ofVec v = .ok ⟨v⟩
  constant : 0 < p.degree
  pbsBits : p.pbsBaseLog.toNat * p.pbsLevel.toNat < UInt64.size
  ksBits : p.ksBaseLog.toNat * p.ksLevel.toNat < UInt64.size
  rows : (p.k + 1) * p.pbsLevel.toNat < UInt64.size

variable {p : Parameters}

/-- Validation implies every later assertion. -/
theorem Parameters.Valid.inDomain (hp : p.Valid) : p.InDomain where
  pbsWeights := by
    rcases hp.exists_pbsGadget with ⟨g, hg, -, -⟩
    exact ⟨g, hg, g.checkedBases_eq_ok⟩
  ksWeights := by
    rcases hp.exists_ksGadget with ⟨g, hg, -, -⟩
    exact ⟨g, hg, g.checkedBases_eq_ok⟩
  transform := by
    rcases Transform.exists_ofSize (κ := ComplexFloat) hp.polynomialSize.1 hp.isPowerOfTwo with
      ⟨depth, hdepth, htransform⟩
    exact ⟨_, htransform, hdepth.symm⟩
  polynomial := fun _ hv => Polynomial.ofVec_eq_ok hp.isPowerOfTwo hv
  constant := Nat.pos_of_isPowerOfTwo hp.isPowerOfTwo
  pbsBits := hp.pbsSizes.2.2.trans_lt (by decide)
  ksBits := hp.ksSizes.2.2.trans_lt (by decide)
  rows := hp.rows_lt

/-! ## Key pairs -/

/-- A row has a constant coefficient where the weight of its block goes: on the mask polynomial of
the block, or on the body for the block behind the last of these. -/
def GlweSample.HasTarget (row : GlweSample) (block : Nat) : Prop :=
  (∃ q, row.mask[block]? = some q ∧ 0 < q.size) ∨ (block = row.mask.length ∧ 0 < row.body.size)

theorem GlweSample.Shaped.hasTarget {row : GlweSample} {k n : Nat} (h : row.Shaped k n)
    (hn : 0 < n) {block : Nat} (hblock : block ≤ k) : row.HasTarget block := by
  rcases hblock.lt_or_eq with hlt | rfl
  · have hmask : block < row.mask.length := hlt.trans_eq h.rank.symm
    refine .inl ⟨row.mask[block], List.getElem?_eq_getElem hmask, ?_⟩
    rwa [h.mask _ (List.getElem_mem hmask)]
  · exact .inr ⟨h.rank.symm, h.body.symm ▸ hn⟩

/-- The two keys of an instance.  Both have the sizes that its parameters prescribe, so that every
row of a gadget encryption has a place for its weight, and the entries of the secret keys are zero or
one. -/
structure IsKeyPair (p : Parameters) (ck : ClientKey) (sk : ServerKey) : Prop where
  clientParams : ck.params = p
  serverParams : sk.params = p
  complete : ck.Complete
  lweDimension : ck.lweKey.dimension = p.n
  glweDimension : ck.glweKey.toLweKey.dimension = p.k * p.degree
  binary : ck.Binary
  sized : sk.Sized p
  targets : ∀ c ∈ sk.bootstrappingKey, ∀ (i : Nat) (row : GlweSample), c.rows[i]? = some row →
    row.HasTarget (i / p.pbsLevel.toNat)

/-- Rows are as many as blocks of one row for each level. -/
theorem ServerKey.Sized.hasTarget (hp : p.Valid) {sk : ServerKey} (h : sk.Sized p)
    {c : GgswSample} (hc : c ∈ sk.bootstrappingKey) {i : Nat} {row : GlweSample}
    (hrow : c.rows[i]? = some row) : row.HasTarget (i / p.pbsLevel.toNat) := by
  have hi : i < (p.k + 1) * p.pbsLevel.toNat := by
    rw [← h.rows c hc]
    exact (List.getElem?_eq_some_iff.1 hrow).1
  have hblock : i / p.pbsLevel.toNat < p.k + 1 := (Nat.div_lt_iff_lt_mul hp.pbsSizes.2.1).2 hi
  exact (h.shaped c hc row (List.mem_of_getElem? hrow)).hasTarget
    (Nat.pos_of_isPowerOfTwo hp.isPowerOfTwo) (Nat.le_of_lt_succ hblock)

variable {γ : Type} [Generator γ]

/-- Valid parameters have both keys, from every state of every generator and whatever the noise. -/
theorem exists_generateKeysWith (hp : p.Valid) (noise : Noise γ) (g : γ) :
    ∃ ck sk g', generateKeysWith noise p g = .ok (.ok (ck, sk), g') ∧ IsKeyPair p ck sk := by
  rcases ClientKey.exists_generate hp g with ⟨ck, start, hclient, hck, rfl⟩
  rcases ServerKey.exists_generateWith hck noise start with ⟨sk, hserver, hparams, hsized⟩
  have hglwe : ck.glweKey.toLweKey.dimension = ck.params.k * ck.params.degree := by
    rw [LweKey.dimension, GlweKey.length_toLweKey hck.degree, hck.rank]
  have hrun : generateKeysWith noise ck.params g =
      .ok (.ok (ck, sk), (ServerKey.noises noise ck.params start).2) := by
    simp [generateKeysWith, hclient, hserver]
  exact ⟨ck, sk, _, hrun, rfl, hparams, hck, hck.dimension, hglwe,
    ClientKey.binary_of_generate hclient, hsized, fun _ hc _ _ hrow => hsized.hasTarget hp hc hrow⟩

/-- Parameters that validation refuses have no keys, and nothing is drawn for them. -/
theorem generateKeysWith_of_validate_eq_error {cause : InvalidSetting}
    (h : p.validate = .error cause) (noise : Noise γ) (g : γ) :
    generateKeysWith noise p g = .ok (.error (.invalidParameter cause), g) := by
  simp [generateKeysWith, ClientKey.generate, h]

/-- Key generation is all or nothing, for any parameters.  It fails exactly if validation does, with
the same error and with the generator where it was.  Otherwise no operation leaves its domain, and
both keys are made. -/
theorem generateKeysWith_all_or_nothing (noise : Noise γ) (p : Parameters) (g : γ) :
    (∀ e g', generateKeysWith noise p g = .ok (.error e, g') ↔
      g' = g ∧ ∃ cause, p.validate = .error cause ∧ e = .invalidParameter cause) ∧
    (p.validate = .ok () → p.InDomain ∧
      ∃ ck sk g', generateKeysWith noise p g = .ok (.ok (ck, sk), g') ∧ IsKeyPair p ck sk) := by
  cases hvalidate : p.validate with
  | error cause =>
    have hrun := generateKeysWith_of_validate_eq_error hvalidate noise g
    refine ⟨?_, nofun⟩
    intro e g'
    simp [hrun, eq_comm, and_comm]
  | ok _ =>
    have hp : p.Valid := Parameters.validate_eq_ok_iff.1 hvalidate
    rcases exists_generateKeysWith hp noise g with ⟨ck, sk, g', hrun, hkeys⟩
    refine ⟨?_, fun _ => ⟨hp.inDomain, ck, sk, g', hrun, hkeys⟩⟩
    intro e g''
    simp [hrun]

/-- With a base and a depth whose product wraps to zero in 64 bits no word is taken from the
generator; with one whose product is 32 there are keys. -/
theorem generateKeysWith_all_or_nothing_wrapping_product :
    let p : Parameters :=
      ⟨2, 1, 2, ⟨0x3f50000000000000⟩, ⟨0x3f50000000000000⟩, 16, 2, 4, 8⟩
    let q : Parameters := { p with ksBaseLog := 0x8000000000000000, ksLevel := 2 }
    let start : Metered CyclicWords := ⟨⟨#[0x80000003, 0x10000005, 0xc0000001], 0⟩, 0⟩
    let noise : Noise (Metered CyclicWords) := ⟨Sampler.binary, Sampler.uniform⟩
    q.ksBaseLog * q.ksLevel = 0 ∧
      generateKeysWith noise q start =
        .ok (.error (.invalidParameter ⟨.ksLevel, .tooManyBits (2 ^ 63) 2⟩), start) ∧
      ∃ ck sk final, generateKeysWith noise p start = .ok (.ok (ck, sk), final) ∧
        ck.lweKey.dimension = 2 ∧ ck.glweKey.toLweKey.dimension = 2 ∧
        sk.keySwitchingKey.samples.length = 16 := by
  intro p q start noise
  have hp : p.validate = .ok () := Parameters.validate_eq_ok_iff.2 (by decide +kernel)
  have hq : q.validate = .error ⟨.ksLevel, .tooManyBits (2 ^ 63) 2⟩ := by decide +kernel
  refine ⟨by decide, ?_, ?_⟩
  · exact ((generateKeysWith_all_or_nothing noise q start).1 _ _).2 ⟨rfl, _, hq, rfl⟩
  · rcases (generateKeysWith_all_or_nothing noise p start).2 hp with
      ⟨-, ck, sk, final, hrun, hkeys⟩
    exact ⟨ck, sk, final, hrun, hkeys.lweDimension, hkeys.glweDimension,
      hkeys.sized.keySwitchingKey⟩

end TorusFHE
