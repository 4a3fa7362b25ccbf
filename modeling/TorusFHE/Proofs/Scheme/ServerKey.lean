import TorusFHE.Proofs.Glwe.Ggsw
import TorusFHE.Proofs.Lwe.KeySwitch
import TorusFHE.Proofs.Scheme.KeyGeneration

/-!
# What a server key encrypts

The gadget encryptions stand for the entries of the key of samples, in order, and the key-switching
samples for the coefficients of the ring key, polynomial by polynomial.  Neither depends on how
products with the ring key are computed, because the rows in question are made and read with the
same product of the same mask.

* `ServerKey.Encrypts`: the phases of a server key, position by position;
* `ServerKey.generateOver_follows`: what generation draws and builds;
* `ServerKey.exists_generateWith`: generation succeeds, with parts of the prescribed sizes;
* `ServerKey.generate_encrypts`: every server key encrypts its client key.
-/

namespace TorusFHE

/-! ## Positions -/

/-- Entry `c` of the flat key is a coefficient of polynomial `c / n`. -/
theorem GlweKey.getD_toLweKey {s : GlweKey} {n : Nat} (hs : ∀ q ∈ s.polys, q.size = n)
    (hn : 0 < n) (c : Nat) :
    s.toLweKey.coeffs.getD c 0 = (s.polys.getD (c / n) ⟨[]⟩).coeffs.getD (c % n) 0 := by
  -- The polynomials are blocks of `n` entries.
  have hpos : c = c / n * n + c % n := (Nat.div_add_mod' c n).symm
  have hentry := getElem?_flatMap_of_length hs (c / n) (Nat.mod_lt c hn)
  rw [← hpos] at hentry
  rw [toLweKey, List.getD_eq_getElem?_getD, hentry]
  cases h : s.polys[c / n]? <;> simp [List.getD_eq_getElem?_getD, h]

theorem GlweKey.length_toLweKey {s : GlweKey} {n : Nat} (hs : ∀ q ∈ s.polys, q.size = n) :
    s.toLweKey.coeffs.length = s.polys.length * n := by
  have hsizes : s.polys.map (fun q => q.coeffs.length) = s.polys.map fun _ => n :=
    List.map_congr_left hs
  simp [toLweKey, List.length_flatMap, hsizes]

/-- Plaintext `c * levels + j` is the multiple of the negated entry `c` by the weight behind level
`j`. -/
theorem KeySwitchingKey.getElem?_plaintexts (g : Gadget) {source : TorusVec} {c j : Nat}
    (hc : c < source.length) (hj : j < g.levels) :
    (plaintexts g source)[c * g.levels + j]? =
      some (-source.getD c 0 * 2 ^ (32 - (j + 1) * g.logBase)) := by
  rw [plaintexts, getElem?_flatMap_of_length (fun s _ => g.length_powers (-s)) c hj]
  simp [g.getElem?_powers _ hj, hc]

namespace ServerKey

variable {γ : Type} [Generator γ]

/-! ## Draws -/

/-- The noises of the rows of all gadget encryptions, in order. -/
def bootstrappingNoises (noise : Noise γ) (p : Parameters) : Sampler γ (List (List TorusVec)) :=
  (Ggsw.noises p.k p.degree p.pbsLevel.toNat noise.glwe).repeated p.n

/-- The noises of the key-switching samples, in order. -/
def keySwitchingNoises (noise : Noise γ) (p : Parameters) : Sampler γ TorusVec :=
  (LweKey.maskedNoise p.n noise.lwe).repeated (p.k * p.degree * p.ksLevel.toNat)

/-- The noises of a server key. -/
structure KeyNoises where
  bootstrapping : List (List TorusVec)
  keySwitching : TorusVec

/-- The noise of one row of one gadget encryption. -/
def KeyNoises.row (es : KeyNoises) (i position : Nat) : TorusVec :=
  (es.bootstrapping.getD i []).getD position []

/-- One noise for each coefficient of each row and for each key-switching sample. -/
structure KeyNoises.Shaped (p : Parameters) (es : KeyNoises) : Prop where
  keys : es.bootstrapping.length = p.n
  rows : ∀ rows ∈ es.bootstrapping, rows.length = (p.k + 1) * p.pbsLevel.toNat
  coefficients : ∀ rows ∈ es.bootstrapping, ∀ e ∈ rows, e.length = p.degree
  samples : es.keySwitching.length = p.k * p.degree * p.ksLevel.toNat

/-- The noises of a server key, those of the gadget encryptions first. -/
def noises (noise : Noise γ) (p : Parameters) : Sampler γ KeyNoises := fun g =>
  let rows := bootstrappingNoises noise p g
  let samples := keySwitchingNoises noise p rows.2
  (⟨rows.1, samples.1⟩, samples.2)

theorem noises_shaped (noise : Noise γ) (p : Parameters) (g : γ) :
    (noises noise p g).1.Shaped p where
  keys := Sampler.length_repeated _ _ _
  rows := Sampler.forall_mem_repeated _ (Sampler.length_repeated _ _) _ _
  coefficients := Sampler.forall_mem_repeated _
    (Sampler.forall_mem_repeated _ (Glwe.length_maskedNoise _ _ _) _) _ _
  samples := Sampler.length_repeated _ _ _

/-! ## Generation -/

/-- The parts of a server key, with the plaintexts and the noises that they are made of. -/
structure Parts (pbs ks : Gadget) (product : Glwe.MaskProduct) (ck : ClientKey) (sk : ServerKey)
    (es : KeyNoises) : Prop where
  params : sk.params = ck.params
  bootstrapping : List.Forall₂
    (fun c p => List.Forall₂ (fun row target => Ggsw.IsRow product target.1 row target.2) c.rows
      ((Ggsw.targets pbs product.rank p.1).zip p.2))
    sk.bootstrappingKey (ck.lweKey.coeffs.zip es.bootstrapping)
  keySwitching : LweSample.HavePhases ck.lweKey sk.keySwitchingKey.samples
    (List.zipWith (· + ·) (KeySwitchingKey.plaintexts ks ck.glweKey.toLweKey.coeffs)
      es.keySwitching)

variable {ck : ClientKey} {product : Glwe.MaskProduct} {pbs ks : Gadget}

/-- The gadget encryptions, one for each entry of the key of samples. -/
theorem bootstrapping_follows (hck : ck.Complete) (hrank : product.rank = ck.params.k)
    (hdegree : product.degree = ck.params.degree) (htotal : product.Total)
    (hpbsLevels : pbs.levels = ck.params.pbsLevel.toNat) (noise : Noise γ) :
    (ck.lweKey.coeffs.mapM fun s => Ggsw.encrypt pbs product s noise.glwe).Follows
      (bootstrappingNoises noise ck.params)
      fun cs es => List.Forall₂
        (fun c p => List.Forall₂ (fun row target => Ggsw.IsRow product target.1 row target.2) c.rows
          ((Ggsw.targets pbs product.rank p.1).zip p.2))
        cs (ck.lweKey.coeffs.zip es) := by
  have hlwe : ck.lweKey.coeffs.length = ck.params.n := hck.dimension
  have hggsws := Draw.Follows.mapM (l := ck.lweKey.coeffs)
    fun s _ => Ggsw.encrypt_follows pbs htotal s noise.glwe
  rw [hlwe, hrank, hdegree, hpbsLevels] at hggsws
  rw [hrank]
  exact hggsws

/-- Generation succeeds over every product with the ring key. -/
theorem generateOver_follows (hck : ck.Complete) (hrank : product.rank = ck.params.k)
    (hdegree : product.degree = ck.params.degree) (htotal : product.Total)
    (hpbs : ck.params.pbsGadget = .ok pbs) (hpbsLevels : pbs.levels = ck.params.pbsLevel.toNat)
    (hks : ck.params.ksGadget = .ok ks) (hksLevels : ks.levels = ck.params.ksLevel.toNat)
    (noise : Noise γ) :
    (generateOver product noise ck).Follows (noises noise ck.params)
      (Parts pbs ks product ck) := by
  intro start
  rcases bootstrapping_follows hck hrank hdegree htotal hpbsLevels noise start with
    ⟨ggsws, hrun, hrows⟩
  -- The key-switching samples, one for each coefficient and weight.
  have hswitching := KeySwitchingKey.generate_follows ks ck.glweKey.toLweKey.coeffs ck.lweKey
    noise.lwe
  rw [GlweKey.length_toLweKey hck.degree, hck.rank, hck.dimension, hksLevels] at hswitching
  rcases hswitching (bootstrappingNoises noise ck.params start).2 with ⟨k, hruns, hphases⟩
  refine ⟨⟨ggsws, k, ck.params⟩, ?_, rfl, hrows, hphases⟩
  simp only [generateOver, hpbs, hks, Draw.bind_apply, Draw.lift_ok, ok_bind, hrun, hruns]
  rfl

/-! ## Sizes -/

/-- Parts of the sizes that the parameters prescribe. -/
structure Sized (p : Parameters) (sk : ServerKey) : Prop where
  bootstrappingKey : sk.bootstrappingKey.length = p.n
  rows : ∀ c ∈ sk.bootstrappingKey, c.rows.length = (p.k + 1) * p.pbsLevel.toNat
  shaped : ∀ c ∈ sk.bootstrappingKey, ∀ row ∈ c.rows, row.Shaped p.k p.degree
  keySwitchingKey : sk.keySwitchingKey.samples.length = p.k * p.degree * p.ksLevel.toNat
  samples : ∀ d ∈ sk.keySwitchingKey.samples, d.dimension = p.n

/-- The parts of a server key have the sizes that the parameters prescribe. -/
theorem Parts.sized (hck : ck.Complete) (hrank : product.rank = ck.params.k)
    (hdegree : product.degree = ck.params.degree)
    (hpbsLevels : pbs.levels = ck.params.pbsLevel.toNat)
    (hksLevels : ks.levels = ck.params.ksLevel.toNat) {es : KeyNoises} (hes : es.Shaped ck.params)
    {sk : ServerKey} (h : Parts pbs ks product ck sk es) : sk.Sized ck.params where
  bootstrappingKey := by
    have hlwe : ck.lweKey.coeffs.length = ck.params.n := hck.dimension
    rw [h.bootstrapping.length_eq, List.length_zip, hes.keys, hlwe, Nat.min_self]
  rows := by
    intro c hc
    rcases exists_mem_of_forall₂ h.bootstrapping hc with ⟨⟨s, noises⟩, hmem, hrows⟩
    have hnoises := hes.rows noises (List.of_mem_zip hmem).2
    rw [hrows.length_eq, List.length_zip, Ggsw.length_targets, hrank, hpbsLevels, hnoises,
      Nat.min_self]
  shaped := by
    intro c hc row hrow
    rcases exists_mem_of_forall₂ h.bootstrapping hc with ⟨_, -, hrows⟩
    rcases exists_mem_of_forall₂ hrows hrow with ⟨_, -, hisRow⟩
    have hshaped := hisRow.shaped
    rwa [hrank, hdegree] at hshaped
  keySwitchingKey := by
    rw [h.keySwitching.length_eq, List.length_zipWith, hes.samples,
      KeySwitchingKey.length_plaintexts, GlweKey.length_toLweKey hck.degree, hck.rank, hksLevels,
      Nat.min_self]
  samples := by
    intro d hd
    exact (LweSample.dimension_of_mem_of_havePhases h.keySwitching hd).trans hck.dimension

/-! ## Phases -/

/-- The server key encrypts the client key with these noises: row `k * pbsLevel + (j - 1)` of gadget
encryption `i` stands for entry `i` of the key of samples times the weight of level `j`, and
key-switching sample `c * ksLevel + (j - 1)` for the negated coefficient `c % degree` of ring key
polynomial `c / degree` times its weight. -/
structure Encrypts (product : Glwe.MaskProduct) (ck : ClientKey) (es : KeyNoises)
    (sk : ServerKey) : Prop where
  params : sk.params = ck.params
  length_bootstrappingKey : sk.bootstrappingKey.length = ck.params.n
  length_keySwitchingKey : sk.keySwitchingKey.samples.length =
    ck.params.k * ck.params.degree * ck.params.ksLevel.toNat
  bootstrapping : ∀ i < ck.params.n, ∀ j, 1 ≤ j → j ≤ ck.params.pbsLevel.toNat →
    let position := ck.params.k * ck.params.pbsLevel.toNat + (j - 1)
    ∃ c row x, sk.bootstrappingKey[i]? = some c ∧ c.rows[position]? = some row ∧
      Glwe.phase product row = .ok x ∧ x.size = ck.params.degree ∧
      (es.row i position).length = ck.params.degree ∧
      ∀ t < ck.params.degree, x.coeffs.getD t 0 =
        (if t = 0 then ck.lweKey.coeffs.getD i 0 * 2 ^ (32 - j * ck.params.pbsBaseLog.toNat)
          else 0) + (es.row i position).getD t 0
  keySwitching : ∀ c < ck.params.k * ck.params.degree, ∀ j, 1 ≤ j → j ≤ ck.params.ksLevel.toNat →
    let position := c * ck.params.ksLevel.toNat + (j - 1)
    let entry := (ck.glweKey.polys.getD (c / ck.params.degree) ⟨[]⟩).coeffs.getD
      (c % ck.params.degree) 0
    ∃ d, sk.keySwitchingKey.samples[position]? = some d ∧
      d.phase ck.lweKey = .ok (-entry * 2 ^ (32 - j * ck.params.ksBaseLog.toNat)
        + es.keySwitching.getD position 0)

/-- A row in the last block of a gadget encryption has its weighed key entry as phase. -/
theorem Parts.exists_row (hck : ck.Complete) (hrank : product.rank = ck.params.k)
    (htotal : product.Total) (hbase : pbs.logBase = ck.params.pbsBaseLog.toNat)
    (hlevels : pbs.levels = ck.params.pbsLevel.toNat) {es : KeyNoises} (hes : es.Shaped ck.params)
    {sk : ServerKey} (h : Parts pbs ks product ck sk es) {i j : Nat} (hi : i < ck.params.n)
    (hj : 1 ≤ j) (hjle : j ≤ ck.params.pbsLevel.toNat) :
    let position := ck.params.k * ck.params.pbsLevel.toNat + (j - 1)
    let weight : Torus := 2 ^ (32 - j * ck.params.pbsBaseLog.toNat)
    ∃ c row, sk.bootstrappingKey[i]? = some c ∧ c.rows[position]? = some row ∧
      (es.row i position).length = ck.params.degree ∧
      Glwe.phase product row =
        .ok ⟨(es.row i position).modify 0 (· + ck.lweKey.coeffs.getD i 0 * weight)⟩ := by
  intro position weight
  -- Gadget encryption `i` is that of key entry `i`.
  have hlwe : i < ck.lweKey.coeffs.length := hi.trans_eq hck.dimension.symm
  have hnoises := getElem?_eq_some_getD (hi.trans_eq hes.keys.symm) []
  have hentry : (ck.lweKey.coeffs.zip es.bootstrapping)[i]? =
      some (ck.lweKey.coeffs.getD i 0, es.bootstrapping.getD i []) :=
    List.getElem?_zip_eq_some.2 ⟨getElem?_eq_some_getD hlwe 0, hnoises⟩
  rcases exists_getElem?_of_forall₂ h.bootstrapping hentry with ⟨c, hc, hrows⟩
  -- Its row at the position belongs to the last block and to level `j`.
  have hmem := List.mem_of_getElem? hnoises
  have hlength : (es.bootstrapping.getD i []).length = (product.rank + 1) * pbs.levels := by
    rw [hes.rows _ hmem, hrank, hlevels]
  rcases Ggsw.exists_isRow pbs hrows hlength (le_refl product.rank) hj (hlevels ▸ hjle) with
    ⟨row, hrow, hnoise, hisRow⟩
  have hphase := hisRow.phase htotal
  rw [hlevels, hrank] at hrow hnoise hphase
  rw [hbase] at hphase
  exact ⟨c, row, hc, hrow, hes.coefficients _ hmem _ hnoise, hphase⟩

/-- A key-switching sample has its weighed coefficient of the ring key as phase, negated. -/
theorem Parts.exists_sample (hck : ck.Complete) (hbase : ks.logBase = ck.params.ksBaseLog.toNat)
    (hlevels : ks.levels = ck.params.ksLevel.toNat) {es : KeyNoises} (hes : es.Shaped ck.params)
    {sk : ServerKey} (h : Parts pbs ks product ck sk es) {c j : Nat}
    (hc : c < ck.params.k * ck.params.degree) (hj : 1 ≤ j) (hjle : j ≤ ck.params.ksLevel.toNat) :
    let position := c * ck.params.ksLevel.toNat + (j - 1)
    let weight : Torus := 2 ^ (32 - j * ck.params.ksBaseLog.toNat)
    ∃ d, sk.keySwitchingKey.samples[position]? = some d ∧
      d.phase ck.lweKey = .ok (-ck.glweKey.toLweKey.coeffs.getD c 0 * weight
        + es.keySwitching.getD position 0) := by
  intro position weight
  -- The sample at the position belongs to source entry `c` and to level `j`.
  have hsource : c < ck.glweKey.toLweKey.coeffs.length := by
    rwa [GlweKey.length_toLweKey hck.degree, hck.rank]
  have hlevel : j - 1 < ks.levels := by omega
  have hplaintext := KeySwitchingKey.getElem?_plaintexts ks hsource hlevel
  rw [hlevels, hbase, Nat.sub_add_cancel hj] at hplaintext
  have hposition : position < es.keySwitching.length := by
    rw [hes.samples]
    calc
      position < c * ck.params.ksLevel.toNat + ck.params.ksLevel.toNat :=
        Nat.add_lt_add_left (by omega) _
      _ = (c + 1) * ck.params.ksLevel.toNat := (Nat.succ_mul _ _).symm
      _ ≤ ck.params.k * ck.params.degree * ck.params.ksLevel.toNat :=
        Nat.mul_le_mul_right _ hc
  have hphase : (List.zipWith (· + ·)
      (KeySwitchingKey.plaintexts ks ck.glweKey.toLweKey.coeffs) es.keySwitching)[position]? =
        some (-ck.glweKey.toLweKey.coeffs.getD c 0 * weight + es.keySwitching.getD position 0) := by
    rw [List.getElem?_zipWith, hplaintext, getElem?_eq_some_getD hposition 0]
  exact exists_getElem?_of_forall₂ h.keySwitching hphase

/-- The parts of a server key make it one that encrypts the client key. -/
theorem Parts.encrypts (hck : ck.Complete) (hrank : product.rank = ck.params.k)
    (hdegree : product.degree = ck.params.degree) (htotal : product.Total)
    (hpbsBase : pbs.logBase = ck.params.pbsBaseLog.toNat)
    (hpbsLevels : pbs.levels = ck.params.pbsLevel.toNat)
    (hksBase : ks.logBase = ck.params.ksBaseLog.toNat)
    (hksLevels : ks.levels = ck.params.ksLevel.toNat) {es : KeyNoises} (hes : es.Shaped ck.params)
    {sk : ServerKey} (h : Parts pbs ks product ck sk es) : Encrypts product ck es sk where
  params := h.params
  length_bootstrappingKey := (h.sized hck hrank hdegree hpbsLevels hksLevels hes).bootstrappingKey
  length_keySwitchingKey := (h.sized hck hrank hdegree hpbsLevels hksLevels hes).keySwitchingKey
  bootstrapping := by
    intro i hi j hj hjle position
    rcases h.exists_row hck hrank htotal hpbsBase hpbsLevels hes hi hj hjle with
      ⟨c, row, hc, hrow, hnoise, hphase⟩
    refine ⟨c, row, _, hc, hrow, hphase, (List.length_modify _ _ _).trans hnoise, hnoise, ?_⟩
    intro t ht
    exact TorusVec.getD_modify_zero_add (ht.trans_eq hnoise.symm) _
  keySwitching := by
    intro c hc j hj hjle position entry
    have hpos : 0 < ck.params.degree := Nat.pos_of_isPowerOfTwo hck.valid.isPowerOfTwo
    have hsample := h.exists_sample hck hksBase hksLevels hes hc hj hjle
    rw [GlweKey.getD_toLweKey hck.degree hpos] at hsample
    exact hsample

/-- Over every product with the ring key there is a server key.  It has the prescribed sizes and
encrypts the client key. -/
theorem exists_generateOver (hck : ck.Complete) (hrank : product.rank = ck.params.k)
    (hdegree : product.degree = ck.params.degree) (htotal : product.Total) (noise : Noise γ)
    (g : γ) :
    ∃ sk, generateOver product noise ck g = .ok (sk, (noises noise ck.params g).2) ∧
      sk.Sized ck.params ∧ Encrypts product ck (noises noise ck.params g).1 sk := by
  rcases hck.valid.exists_pbsGadget with ⟨pbs, hpbs, hpbsBase, hpbsLevels⟩
  rcases hck.valid.exists_ksGadget with ⟨ks, hks, hksBase, hksLevels⟩
  have hes := noises_shaped noise ck.params g
  rcases generateOver_follows hck hrank hdegree htotal hpbs hpbsLevels hks hksLevels noise g with
    ⟨sk, hrun, hparts⟩
  exact ⟨sk, hrun, hparts.sized hck hrank hdegree hpbsLevels hksLevels hes,
    hparts.encrypts hck hrank hdegree htotal hpbsBase hpbsLevels hksBase hksLevels hes⟩

/-- Every complete client key has a server key, from every state of every generator and whatever the
noise. -/
theorem exists_generateWith (hck : ck.Complete) (noise : Noise γ) (g : γ) :
    ∃ sk, generateWith noise ck g = .ok (sk, (noises noise ck.params g).2) ∧
      sk.params = ck.params ∧ sk.Sized ck.params := by
  rcases exists_maskProduct hck with ⟨product, hproduct, hrank, hdegree, htotal⟩
  rcases exists_generateOver hck hrank hdegree htotal noise g with ⟨sk, hrun, hsized, hsk⟩
  exact ⟨sk, by simp [generateWith, hproduct, hrun], hsk.params, hsized⟩

/-- Every server key encrypts exactly its client key, whatever the noise.  The product with the ring
key by the Fourier transform can be replaced by any other. -/
theorem generate_encrypts {δ : Type} [Generator δ] {p : Parameters} {start final : δ}
    (hck : ClientKey.generate p start = .ok (.ok ck, final)) (noise : Noise γ) (g : γ) :
    (∃ product, maskProduct ck = .ok product ∧ product.rank = p.k ∧ product.degree = p.degree ∧
      product.Total ∧ generateWith noise ck g = generateOver product noise ck g) ∧
    ∀ product : Glwe.MaskProduct, product.rank = p.k → product.degree = p.degree →
      product.Total →
        ∃ sk, generateOver product noise ck g = .ok (sk, (noises noise p g).2) ∧
          Encrypts product ck (noises noise p g).1 sk := by
  rcases ClientKey.complete_of_generate hck with ⟨hcomplete, rfl⟩
  constructor
  · rcases exists_maskProduct hcomplete with ⟨product, hrun, hrank, hdegree, htotal⟩
    refine ⟨product, hrun, hrank, hdegree, htotal, ?_⟩
    simp [generateWith, hrun]
  · intro product hrank hdegree htotal
    rcases exists_generateOver hcomplete hrank hdegree htotal noise g with ⟨sk, hrun, -, hsk⟩
    exact ⟨sk, hrun, hsk⟩

/-- A key of two entries and two levels: the second level of the first entry, and of the first ring
coefficient. -/
theorem generate_encrypts_two_entries :
    let p : Parameters :=
      ⟨2, 1, 2, ⟨0x3f50000000000000⟩, ⟨0x3f50000000000000⟩, 4, 2, 4, 2⟩
    let start : CyclicWords :=
      ⟨#[0x80000003, 0x10000005, 0xc0000001, 0x20000007, 0x90000009], 0⟩
    let later : CyclicWords := ⟨start.words, 4⟩
    let noise : Noise CyclicWords := ⟨Sampler.binary, Sampler.binary⟩
    let ck : ClientKey := ⟨⟨[1, 0]⟩, ⟨[⟨[1, 0]⟩]⟩, p⟩
    ClientKey.generate p start = .ok (.ok ck, later) ∧
      ∃ product sk final, maskProduct ck = .ok product ∧
        generateWith noise ck later = .ok (sk, final) ∧
        (∃ c row x, sk.bootstrappingKey[0]? = some c ∧ c.rows[3]? = some row ∧
          Glwe.phase product row = .ok x ∧
          x.coeffs.getD 0 0 = ⟨0x01000000⟩ ∧ x.coeffs.getD 1 0 = ⟨1⟩) ∧
        ∃ d, sk.keySwitchingKey.samples[1]? = some d ∧ d.phase ck.lweKey = .ok ⟨0xff000000⟩ := by
  intro p start later noise ck
  have hvalid : p.Valid := by decide +kernel
  have hkey : ClientKey.generate p start = .ok (.ok ck, later) := by
    rw [ClientKey.generate, Parameters.validate_eq_ok_iff.2 hvalid]
    with_unfolding_all rfl
  obtain ⟨⟨product, hproduct, hrank, hdegree, htotal, hover⟩, hall⟩ :=
    generate_encrypts hkey noise later
  rcases hall product hrank hdegree htotal with ⟨sk, hrun, hsk⟩
  refine ⟨hkey, product, sk, _, hproduct, hover.trans hrun, ?_, ?_⟩
  · rcases hsk.bootstrapping 0 (by decide) 2 (by decide) (by decide) with
      ⟨c, row, x, hc, hrow, hphase, -, -, hcoeffs⟩
    refine ⟨c, row, x, hc, hrow, hphase, ?_, ?_⟩
    · rw [hcoeffs 0 (by decide)]
      decide +kernel
    · rw [hcoeffs 1 (by decide)]
      decide +kernel
  · rcases hsk.keySwitching 0 (by decide) 2 (by decide) (by decide) with ⟨d, hd, hphase⟩
    refine ⟨d, hd, hphase.trans (congrArg Except.ok ?_)⟩
    decide +kernel

end ServerKey

end TorusFHE
