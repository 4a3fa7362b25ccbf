import TorusFHE.Proofs.Lwe.Parallel
import TorusFHE.Proofs.Scheme.CompressedPublicKey
import TorusFHE.Proofs.Scheme.ServerKey

/-!
# What is published is the same for all secrets

Two client keys of the same parameters encrypt, and make their public keys and server keys, in step:
from one state they leave one state, and all masks and seeds agree.  Keys and bits enter the bodies
only.  So neither what is published beside the bodies nor the number of draws tells anything about
the secrets, whatever sampler the noise comes from.

* `ServerKey.Parallel`: the key-switching samples of two server keys, position by position;
* `ClientKey.encryptWith_inStep`, `PublicKey.generateWith_inStep`, `ServerKey.generateWith_inStep`
  and so on: each algorithm by itself;
* `ClientKey.inStep_of_params_eq`: all of them.
-/

namespace TorusFHE

open Draw LweSample

variable {γ : Type} [Generator γ] {ck ck' : ClientKey}

/-- Ciphertexts of one mask whose bodies differ by `x`. -/
structure Ciphertext.Shifted (x : Torus) (c c' : Ciphertext) : Prop where
  lweDimension : c'.lweDimension = c.lweDimension
  mask : c'.sample.mask = c.sample.mask
  body : c.sample.body - c'.sample.body = x

/-! ## Ciphertexts -/

namespace ClientKey

/-- Keys of the same parameters have the same dimension. -/
theorem WellFormed.dimension_eq (hck : ck.WellFormed) (hck' : ck'.WellFormed)
    (hparams : ck'.params = ck.params) : ck'.lweKey.dimension = ck.lweKey.dimension := by
  rw [hck.dimension, hck'.dimension, hparams]

theorem encryptWith_inStep (hck : ck.WellFormed) (hck' : ck'.WellFormed)
    (hparams : ck'.params = ck.params) (noise : Noise γ) (m m' : Bool) :
    InStep (ck.encryptWith noise m) (ck'.encryptWith noise m') fun c c' =>
      c'.lweDimension = c.lweDimension ∧
        Parallel ck.lweKey ck'.lweKey (encodeBit m - encodeBit m') c.sample c'.sample := by
  refine (LweKey.encrypt_inStep (hck.dimension_eq hck' hparams) _ _ noise.lwe).map _ _ ?_
  intro c c' h
  have hdim : c'.dimension = c.dimension := congrArg List.length h.mask
  exact ⟨congrArg UInt64.ofNat hdim, h⟩

theorem encryptCompressedWith_inStep (hck : ck.WellFormed) (hck' : ck'.WellFormed)
    (hparams : ck'.params = ck.params) (noise : Noise γ) (m m' : Bool) :
    InStep (ck.encryptCompressedWith noise m) (ck'.encryptCompressedWith noise m') fun c c' =>
      c'.lweDimension = c.lweDimension ∧ c'.sample.seed = c.sample.seed ∧
        Parallel ck.lweKey ck'.lweKey (encodeBit m - encodeBit m')
          c.decompress.sample c'.decompress.sample := by
  refine (InStep.sample _).bind ?_
  rintro seed _ ⟨rfl, -⟩
  have hdim := hck.dimension_eq hck' hparams
  refine (LweKey.encryptSeeded_inStep hdim _ _ seed noise.lwe).map _ _ ?_
  rintro c c' ⟨hseed, h⟩
  rw [hck.dimension] at h
  exact ⟨congrArg Parameters.lweDimension hparams, hseed, by rw [hparams]; exact h⟩

end ClientKey

/-! ## Public keys -/

theorem PublicKey.generateWith_inStep (hck : ck.WellFormed) (hck' : ck'.WellFormed)
    (hparams : ck'.params = ck.params) (noise : Noise γ) :
    InStep (generateWith noise ck) (generateWith noise ck') fun pk pk' =>
      pk'.params = pk.params ∧
        AllParallel ck.lweKey ck'.lweKey (TorusVec.zeros (publicKeySize ck.params.n))
          pk.zeros pk'.zeros := by
  let zeros := TorusVec.zeros (publicKeySize ck.params.n)
  have hdim := hck.dimension_eq hck' hparams
  have hzeros := LweKey.mapM_encrypt_inStep hdim noise.lwe (rfl : zeros.length = zeros.length)
  have hdiff : List.zipWith (· - ·) zeros zeros = zeros := by
    simp [zeros, TorusVec.zeros]
  rw [hdiff] at hzeros
  rw [generateWith, generateWith, hparams]
  exact hzeros.map _ _ fun _ _ h => ⟨rfl, h⟩

namespace CompressedPublicKey

omit [Generator γ] in
/-- Both runs take their masks from one stream, and the noise from one state. -/
theorem drawBodies_inStep {s s' : LweKey} (hs : s'.dimension = s.dimension) (noise : Noise γ)
    (count : Nat) (acc acc' : List Torus) (stream : ChaCha20.Stream) :
    InStep (drawBodies noise s s.dimension count acc stream)
      (drawBodies noise s' s.dimension count acc' stream) fun bodies bodies' =>
        ∃ rest rest', bodies = acc.reverse ++ rest ∧ bodies' = acc'.reverse ++ rest' ∧
          AllParallel s s' (TorusVec.zeros count) (SubsetSum.expand s.dimension rest stream)
            (SubsetSum.expand s.dimension rest' stream) := by
  induction count generalizing acc acc' stream with
  | zero => exact .pure ⟨[], [], by simp, by simp, .nil⟩
  | succ count ih =>
    have hlen : (ChaCha20.nextMask s.dimension stream).1.length = s.dimension :=
      Sampler.length_repeated _ _ _
    refine (LweKey.encryptWithMask_inStep hs hlen 0 0 noise.lwe).bind ?_
    rintro ⟨_, b⟩ ⟨mask, b'⟩ ⟨rfl, h⟩
    cases h.mask
    refine (ih (b :: acc) (b' :: acc') _).imp ?_
    rintro _ _ ⟨rest, rest', rfl, rfl, htail⟩
    refine ⟨b :: rest, b' :: rest', by simp, by simp, ?_⟩
    rw [SubsetSum.expand_cons, SubsetSum.expand_cons]
    rw [sub_zero] at h
    exact .cons h htail

theorem generateWith_inStep (hck : ck.WellFormed) (hck' : ck'.WellFormed)
    (hparams : ck'.params = ck.params) (noise : Noise γ) :
    InStep (generateWith noise ck) (generateWith noise ck') fun pk pk' =>
      pk'.params = pk.params ∧ pk'.seed = pk.seed ∧
        AllParallel ck.lweKey ck'.lweKey (TorusVec.zeros (publicKeySize ck.params.n))
          pk.decompress.zeros pk'.decompress.zeros := by
  rw [generateWith, generateWith, hparams]
  refine (InStep.sample _).bind ?_
  rintro seed _ ⟨rfl, -⟩
  have hbodies := drawBodies_inStep (hck.dimension_eq hck' hparams) noise
    (publicKeySize ck.params.n) [] [] (.ofSeed seed)
  rw [hck.dimension] at hbodies
  refine hbodies.map _ _ ?_
  rintro _ _ ⟨bodies, bodies', rfl, rfl, h⟩
  exact ⟨rfl, rfl, h⟩

end CompressedPublicKey

/-! ## Encryption under a public key -/

namespace PublicKey

variable {pk : PublicKey} {m : Bool} {g final : γ}

/-- Encryption of one bit goes through exactly if that of another does. -/
theorem exists_encrypt_of_eq_ok {c : Ciphertext} (h : pk.encrypt m g = .ok (c, final))
    (m' : Bool) :
    ∃ c', pk.encrypt m' g = .ok (c', final) ∧ c.Shifted (encodeBit m - encodeBit m') c' := by
  rcases Draw.bind_apply_eq_ok_iff.1 h with ⟨sum, g₁, hsum, hc⟩
  cases hc
  rcases SubsetSum.exists_encrypt_of_eq_ok hsum (encodeBit m') with ⟨sum', hsum', hmask, hbody⟩
  have hdim : sum'.dimension = sum.dimension := congrArg List.length hmask
  exact ⟨.ofSample sum', Draw.bind_apply_eq_ok_iff.2 ⟨sum', final, hsum', rfl⟩,
    congrArg UInt64.ofNat hdim, hmask, hbody⟩

/-- Keys of samples of one dimension encrypt all bits in step. -/
theorem encrypt_inStep (hpk : ∀ c ∈ pk.zeros, c.dimension = pk.params.n) (m m' : Bool) :
    InStep (pk.encrypt m : Draw γ Ciphertext) (pk.encrypt m')
      (Ciphertext.Shifted (encodeBit m - encodeBit m')) := by
  intro g
  rcases pk.exists_encrypt hpk m g with ⟨c, hrun, -⟩
  rcases exists_encrypt_of_eq_ok hrun m' with ⟨c', hrun', h⟩
  exact ⟨_, c', _, hrun, hrun', h⟩

end PublicKey

theorem CompressedPublicKey.encrypt_inStep (pk : CompressedPublicKey) (m m' : Bool) :
    InStep (pk.encrypt m : Draw γ Ciphertext) (pk.encrypt m')
      (Ciphertext.Shifted (encodeBit m - encodeBit m')) := by
  rw [encrypt_eq_encrypt_decompress, encrypt_eq_encrypt_decompress]
  exact PublicKey.encrypt_inStep (fun _ => dimension_of_mem_zeros_decompress) m m'

/-! ## Server keys -/

namespace ServerKey

/-- The key-switching samples of two server keys: sample `c * ksLevel + (j - 1)` of either stands
for the negated entry `c` of its flat ring key times the weight of level `j`. -/
structure Parallel (ck ck' : ClientKey) (sk sk' : ServerKey) : Prop where
  params : sk'.params = sk.params
  length : sk.keySwitchingKey.samples.length =
    ck.params.k * ck.params.degree * ck.params.ksLevel.toNat
  length_eq : sk'.keySwitchingKey.samples.length = sk.keySwitchingKey.samples.length
  samples : ∀ c < ck.params.k * ck.params.degree, ∀ j, 1 ≤ j → j ≤ ck.params.ksLevel.toNat →
    let position := c * ck.params.ksLevel.toNat + (j - 1)
    let weight : Torus := 2 ^ (32 - j * ck.params.ksBaseLog.toNat)
    let plaintext := -ck.glweKey.toLweKey.coeffs.getD c 0 * weight
    let plaintext' := -ck'.glweKey.toLweKey.coeffs.getD c 0 * weight
    ∃ d d', sk.keySwitchingKey.samples[position]? = some d ∧
      sk'.keySwitchingKey.samples[position]? = some d' ∧
      LweSample.Parallel ck.lweKey ck'.lweKey (plaintext - plaintext') d d'

/-- Key-switching samples of two runs, one for each position. -/
theorem parallel_of_allParallel (hck : ck.Complete) (hck' : ck'.Complete)
    (hparams : ck'.params = ck.params) {ks : Gadget}
    (hbase : ks.logBase = ck.params.ksBaseLog.toNat)
    (hlevels : ks.levels = ck.params.ksLevel.toNat) {sk sk' : ServerKey}
    (hsk : sk'.params = sk.params)
    (h : AllParallel ck.lweKey ck'.lweKey
      (List.zipWith (· - ·) (KeySwitchingKey.plaintexts ks ck.glweKey.toLweKey.coeffs)
        (KeySwitchingKey.plaintexts ks ck'.glweKey.toLweKey.coeffs))
      sk.keySwitchingKey.samples sk'.keySwitchingKey.samples) : Parallel ck ck' sk sk' := by
  have hsource : ck.glweKey.toLweKey.coeffs.length = ck.params.k * ck.params.degree := by
    rw [GlweKey.length_toLweKey hck.degree, hck.rank]
  have hsource' : ck'.glweKey.toLweKey.coeffs.length = ck.params.k * ck.params.degree := by
    rw [GlweKey.length_toLweKey hck'.degree, hck'.rank, hparams]
  have hlength : (List.zipWith (· - ·) (KeySwitchingKey.plaintexts ks ck.glweKey.toLweKey.coeffs)
      (KeySwitchingKey.plaintexts ks ck'.glweKey.toLweKey.coeffs)).length =
        ck.params.k * ck.params.degree * ck.params.ksLevel.toNat := by
    simp [hsource, hsource', hlevels]
  refine ⟨hsk, h.length_eq.1.trans hlength, h.length_eq.2.trans h.length_eq.1.symm, ?_⟩
  intro c hc j hj hjle position weight plaintext plaintext'
  -- The pair at the position belongs to source entry `c` and to level `j`.
  have hlevel : j - 1 < ks.levels := by omega
  have hplain := KeySwitchingKey.getElem?_plaintexts ks (hc.trans_eq hsource.symm) hlevel
  have hplain' := KeySwitchingKey.getElem?_plaintexts ks (hc.trans_eq hsource'.symm) hlevel
  rw [hlevels, hbase, Nat.sub_add_cancel hj] at hplain hplain'
  refine h.exists_getElem? ?_
  rw [List.getElem?_zipWith, hplain, hplain']

/-- Over any two products with the two ring keys. -/
theorem generateOver_inStep (hck : ck.Complete) (hck' : ck'.Complete)
    (hparams : ck'.params = ck.params) {product product' : Glwe.MaskProduct}
    (hrank : product.rank = ck.params.k) (hdegree : product.degree = ck.params.degree)
    (htotal : product.Total) (hrank' : product'.rank = ck'.params.k)
    (hdegree' : product'.degree = ck'.params.degree) (htotal' : product'.Total) (noise : Noise γ) :
    InStep (generateOver product noise ck) (generateOver product' noise ck') (Parallel ck ck') := by
  rcases hck.valid.exists_pbsGadget with ⟨pbs, hpbs, -, hpbsLevels⟩
  rcases hck.valid.exists_ksGadget with ⟨ks, hks, hksBase, hksLevels⟩
  have hpbs' : ck'.params.pbsGadget = .ok pbs := by rw [hparams, hpbs]
  have hks' : ck'.params.ksGadget = .ok ks := by rw [hparams, hks]
  refine (InStep.lift hpbs hpbs').bind ?_
  rintro _ _ ⟨rfl, rfl⟩
  -- The gadget encryptions draw masks and noises only, as many for either key.
  have hggsws := bootstrapping_follows hck hrank hdegree htotal hpbsLevels noise
  have hggsws' := bootstrapping_follows hck' hrank' hdegree' htotal' (hparams ▸ hpbsLevels) noise
  rw [hparams] at hggsws'
  refine (hggsws.inStep hggsws').bind fun ggsws ggsws' _ => ?_
  refine (InStep.lift hks hks').bind ?_
  rintro _ _ ⟨rfl, rfl⟩
  have hsource : ck.glweKey.toLweKey.coeffs.length = ck'.glweKey.toLweKey.coeffs.length := by
    rw [GlweKey.length_toLweKey hck.degree, GlweKey.length_toLweKey hck'.degree, hck.rank,
      hck'.rank, hparams]
  have htarget := hck.dimension_eq hck'.toWellFormed hparams
  refine (KeySwitchingKey.generate_inStep _ hsource htarget noise.lwe).map _ _ fun k k' h => ?_
  exact parallel_of_allParallel hck hck' hparams hksBase hksLevels hparams h

theorem generateWith_inStep (hck : ck.Complete) (hck' : ck'.Complete)
    (hparams : ck'.params = ck.params) (noise : Noise γ) :
    InStep (generateWith noise ck) (generateWith noise ck') (Parallel ck ck') := by
  rcases exists_maskProduct hck with ⟨product, hrun, hrank, hdegree, htotal⟩
  rcases exists_maskProduct hck' with ⟨product', hrun', hrank', hdegree', htotal'⟩
  refine (InStep.lift hrun hrun').bind ?_
  rintro _ _ ⟨rfl, rfl⟩
  exact generateOver_inStep hck hck' hparams hrank hdegree htotal hrank' hdegree' htotal' noise

end ServerKey

/-! ## All together -/

/-- Keys and bits leave no trace but in bodies: two runs over any keys of the same valid parameters,
from the same state and with the same noise, leave one state, with equal masks and seeds. -/
theorem ClientKey.inStep_of_params_eq (hck : ck.Complete) (hck' : ck'.Complete)
    (hparams : ck'.params = ck.params) (noise : Noise γ) (m m' : Bool) :
    InStep (ck.encryptWith noise m) (ck'.encryptWith noise m')
      (fun c c' => c'.lweDimension = c.lweDimension ∧
        LweSample.Parallel ck.lweKey ck'.lweKey (encodeBit m - encodeBit m')
          c.sample c'.sample) ∧
    InStep (ck.encryptCompressedWith noise m) (ck'.encryptCompressedWith noise m')
      (fun c c' => c'.lweDimension = c.lweDimension ∧ c'.sample.seed = c.sample.seed ∧
        LweSample.Parallel ck.lweKey ck'.lweKey (encodeBit m - encodeBit m')
          c.decompress.sample c'.decompress.sample) ∧
    InStep (PublicKey.generateWith noise ck) (PublicKey.generateWith noise ck')
      (fun pk pk' => pk'.params = pk.params ∧
        AllParallel ck.lweKey ck'.lweKey (TorusVec.zeros (publicKeySize ck.params.n))
          pk.zeros pk'.zeros) ∧
    InStep (CompressedPublicKey.generateWith noise ck) (CompressedPublicKey.generateWith noise ck')
      (fun pk pk' => pk'.params = pk.params ∧ pk'.seed = pk.seed ∧
        AllParallel ck.lweKey ck'.lweKey (TorusVec.zeros (publicKeySize ck.params.n))
          pk.decompress.zeros pk'.decompress.zeros) ∧
    InStep (ServerKey.generateWith noise ck) (ServerKey.generateWith noise ck')
      (ServerKey.Parallel ck ck') ∧
    (∀ (pk : PublicKey) (g final : γ) (c : Ciphertext), pk.encrypt m g = .ok (c, final) →
      ∃ c', pk.encrypt m' g = .ok (c', final) ∧ c.Shifted (encodeBit m - encodeBit m') c') ∧
    (∀ pk : PublicKey, (∀ c ∈ pk.zeros, c.dimension = pk.params.n) →
      InStep (pk.encrypt m : Draw γ Ciphertext) (pk.encrypt m')
        (Ciphertext.Shifted (encodeBit m - encodeBit m'))) ∧
    (∀ pk : CompressedPublicKey,
      InStep (pk.encrypt m : Draw γ Ciphertext) (pk.encrypt m')
        (Ciphertext.Shifted (encodeBit m - encodeBit m'))) := by
  have hwf : ck.WellFormed := hck.toWellFormed
  have hwf' : ck'.WellFormed := hck'.toWellFormed
  exact ⟨encryptWith_inStep hwf hwf' hparams noise m m',
    encryptCompressedWith_inStep hwf hwf' hparams noise m m',
    PublicKey.generateWith_inStep hwf hwf' hparams noise,
    CompressedPublicKey.generateWith_inStep hwf hwf' hparams noise,
    ServerKey.generateWith_inStep hck hck' hparams noise,
    fun _ _ _ _ hrun => PublicKey.exists_encrypt_of_eq_ok hrun m',
    fun _ hpk => PublicKey.encrypt_inStep hpk m m',
    fun pk => pk.encrypt_inStep m m'⟩

/-- Keys of two entries without a one in common, and opposite bits. -/
theorem ClientKey.inStep_of_params_eq_two_entries :
    let p : Parameters :=
      ⟨2, 1, 2, ⟨0x3f50000000000000⟩, ⟨0x3f50000000000000⟩, 4, 2, 4, 2⟩
    let ck : ClientKey := ⟨⟨[1, 0]⟩, ⟨[⟨[1, 0]⟩]⟩, p⟩
    let ck' : ClientKey := ⟨⟨[0, 1]⟩, ⟨[⟨[0, 1]⟩]⟩, p⟩
    let start : CyclicWords := ⟨#[0x80000003, 0x10000005, 0xc0000001], 0⟩
    let noise : Noise CyclicWords := ⟨Sampler.binary, Sampler.binary⟩
    let pk : PublicKey := ⟨[⟨[⟨3⟩, ⟨5⟩], ⟨7⟩⟩], p⟩
    ck.Complete ∧ ck'.Complete ∧ ck'.params = ck.params ∧
      (∃ c c' final, ck.encryptWith noise true start = .ok (c, final) ∧
        ck'.encryptWith noise false start = .ok (c', final) ∧ c'.sample.mask = c.sample.mask ∧
        c.sample.body - c'.sample.body = TorusVec.inner c.sample.mask [1, -1] + 2 ^ 30) ∧
      (∃ sk sk' final, ServerKey.generateWith noise ck start = .ok (sk, final) ∧
        ServerKey.generateWith noise ck' start = .ok (sk', final) ∧
        sk'.keySwitchingKey.samples.length = 4) ∧
      ∃ c c' final, pk.encrypt true start = .ok (c, final) ∧
        pk.encrypt false start = .ok (c', final) ∧ c'.sample.mask = c.sample.mask ∧
        c.sample.body - c'.sample.body = 2 ^ 30 := by
  intro p ck ck' start noise pk
  have hvalid : p.Valid := by decide +kernel
  have hck : ck.Complete := ⟨⟨hvalid, rfl⟩, rfl, by decide +kernel⟩
  have hck' : ck'.Complete := ⟨⟨hvalid, rfl⟩, rfl, by decide +kernel⟩
  have hpk : ∀ c ∈ pk.zeros, c.dimension = pk.params.n := by decide +kernel
  have hbits : encodeBit true - encodeBit false = 2 ^ 30 := by decide +kernel
  have hkeys : List.zipWith (· - ·) ck.lweKey.coeffs ck'.lweKey.coeffs = [1, -1] := by
    decide +kernel
  rcases inStep_of_params_eq hck hck' rfl noise true false with
    ⟨hencrypt, -, -, -, hserver, -, hpublic, -⟩
  rw [hbits] at hencrypt hpublic
  rcases hencrypt start with ⟨c, c', final, hrun, hrun', -, h⟩
  rcases hserver start with ⟨sk, sk', later, hgen, hgen', hsk⟩
  rcases hpublic pk hpk start with ⟨d, d', last, hsum, hsum', hd⟩
  have hbody := h.body
  rw [hkeys] at hbody
  exact ⟨hck, hck', rfl, ⟨c, c', final, hrun, hrun', h.mask, hbody⟩,
    ⟨sk, sk', later, hgen, hgen', hsk.length_eq.trans hsk.length⟩,
    d, d', last, hsum, hsum', hd.mask, hd.body⟩

end TorusFHE
