import TorusFHE.Proofs.Scheme.PublicKey

/-!
# Compressed public keys and their expansions

Generation draws from two places in turn: the words of each mask from the stream of the seed, and
the noise of each sample from the generator.  Expansion has the stream alone.  The two stay in step
because a mask takes as many words whatever the noise is, so that sample `i` meets the same words
both times.

* `CompressedPublicKey.behind`: the state of the generator behind the noises of `i` samples;
* `CompressedPublicKey.generateWith_lockstep`: every sample of the expansion of a generated key is
  the encryption of zero that generation made;
* `CompressedPublicKey.encrypt_agrees`: encryption under any key, generated or not, is that under its
  expansion.
-/

namespace TorusFHE

variable {γ : Type} [Generator γ]

namespace CompressedPublicKey

/-! ## Expansion -/

theorem zeros_decompress (pk : CompressedPublicKey) :
    pk.decompress.zeros = SubsetSum.expand pk.params.n pk.bodies (.ofPosition pk.seed 0) :=
  rfl

/-- Sample `i` has words `i * n` to `(i + 1) * n` of the seed as its mask. -/
theorem getElem?_zeros_decompress (pk : CompressedPublicKey) (i : Nat) :
    pk.decompress.zeros[i]? =
      pk.bodies[i]?.map fun b => ⟨ChaCha20.maskAt pk.seed (i * pk.params.n) pk.params.n, b⟩ := by
  rw [zeros_decompress, SubsetSum.getElem?_expand, Nat.zero_add]

/-! ## Generation -/

/-- The state that the seed and the noises of `i` samples leave. -/
def behind (noise : Noise γ) (i : Nat) (g : γ) : γ :=
  (noise.lwe.repeated i (Seed.draw g).2).2

theorem behind_succ (noise : Noise γ) (i : Nat) (g : γ) :
    behind noise (i + 1) g = (noise.lwe (behind noise i g)).2 :=
  Sampler.repeated_succ_snd _ _ _

/-- Noise `i` is drawn behind the seed and the noises before it. -/
theorem getElem?_noises {ck : ClientKey} {i : Nat} (hi : i < publicKeySize ck.params.n)
    (noise : Noise γ) (g : γ) :
    (noises noise ck g).1[i]? = some (noise.lwe (behind noise i g)).1 :=
  Sampler.getElem?_repeated _ hi _

/-- The seed of a generated key is the first draw. -/
theorem seed_of_generateWith {noise : Noise γ} {ck : ClientKey} {pk : CompressedPublicKey}
    {g g' : γ} (h : generateWith noise ck g = .ok (pk, g')) : pk.seed = (Seed.draw g).1 := by
  simp only [generateWith, Draw.bind_apply_eq_ok_iff, Draw.sample_apply, Draw.pure_apply,
    Except.ok.injEq, Prod.mk.injEq] at h
  rcases h with ⟨seed, g₁, hseed, bodies, g₂, -, rfl, -⟩
  rw [hseed]

/-- Generation and expansion stay in step.  The expansion of a generated key has as many samples as
its dimension asks for; the mask of sample `i` are the words of the seed from `i * n` on, its phase
is the noise drawn behind the seed and `i` other noises, and it is the encryption of zero with just
this mask and this noise. -/
theorem generateWith_lockstep {δ : Type} [Generator δ] {p : Parameters} {ck : ClientKey}
    {start final : δ} (hck : ClientKey.generate p start = .ok (.ok ck, final)) (noise : Noise γ)
    (g : γ) :
    ∃ pk, generateWith noise ck g = .ok (pk, behind noise (publicKeySize p.n) g) ∧
      pk.seed = (Seed.draw g).1 ∧ pk.decompress.params = p ∧
      pk.decompress.zeros.length = publicKeySize p.n ∧
      ∀ i < publicKeySize p.n, ∃ c, pk.decompress.zeros[i]? = some c ∧
        c.mask = ChaCha20.maskAt pk.seed (i * p.n) p.n ∧
        c.phase ck.lweKey = .ok (noise.lwe (behind noise i g)).1 ∧
        ck.lweKey.encryptWithMask 0 c.mask noise.lwe (behind noise i g) =
          .ok (c, behind noise (i + 1) g) := by
  rcases ClientKey.wellFormed_of_generate hck with ⟨hwf, rfl⟩
  rcases generateWith_phases hwf noise g with ⟨pk, hrun, hparams, hphases⟩
  have hlength : pk.decompress.zeros.length = publicKeySize ck.params.n :=
    hphases.length_eq.trans (length_noises noise ck g)
  refine ⟨pk, hrun, seed_of_generateWith hrun, hparams, hlength, ?_⟩
  intro i hi
  -- The sample at the position of noise `i` has that noise as its phase.
  rcases exists_getElem?_of_forall₂ hphases (getElem?_noises hi noise g) with ⟨c, hc, hphase⟩
  have hmask : c.mask = ChaCha20.maskAt pk.seed (i * ck.params.n) ck.params.n := by
    have hexpand := (getElem?_zeros_decompress pk i).symm.trans hc
    rcases Option.map_eq_some_iff.1 hexpand with ⟨b, -, rfl⟩
    rw [hparams]
  have hzero : c.phase ck.lweKey = .ok (0 + (noise.lwe (behind noise i g)).1) := by
    rw [zero_add, hphase]
  refine ⟨c, hc, hmask, hphase, ?_⟩
  rw [behind_succ]
  exact ck.lweKey.encryptWithMask_eq_ok hzero

/-- A key of two entries, whose noise takes one word or two: the mask of its second sample starts
behind two words of the stream, wherever the generator is. -/
theorem generateWith_lockstep_two_entries :
    let p : Parameters :=
      ⟨2, 1, 2, ⟨0x3f50000000000000⟩, ⟨0x3f50000000000000⟩, 4, 1, 4, 1⟩
    let start : CyclicWords := ⟨#[0x80000003, 0x10000005, 0xc0000001], 0⟩
    let twice : Sampler CyclicWords Torus := fun g =>
      let (b, g) := Sampler.bit g
      if b then Sampler.uniform g else (1, g)
    let noise : Noise CyclicWords := ⟨twice, twice⟩
    let ck : ClientKey := ⟨⟨[1, 0]⟩, ⟨[⟨[1, 1]⟩]⟩, p⟩
    ClientKey.generate p start = .ok (.ok ck, ⟨start.words, 1⟩) ∧
      ∃ pk final c, generateWith noise ck start = .ok (pk, final) ∧
        pk.decompress.zeros.length = 224 ∧ pk.decompress.zeros[1]? = some c ∧
        c.mask = [⟨ChaCha20.word pk.seed 2⟩, ⟨ChaCha20.word pk.seed 3⟩] ∧
        c.phase ck.lweKey = .ok 1 := by
  intro p start twice noise ck
  have hvalid : p.Valid := by decide +kernel
  have hkey : ClientKey.generate p start = .ok (.ok ck, ⟨start.words, 1⟩) := by
    rw [ClientKey.generate, Parameters.validate_eq_ok_iff.2 hvalid]
    with_unfolding_all rfl
  rcases generateWith_lockstep hkey noise start with ⟨pk, hrun, -, -, hlength, hsamples⟩
  rcases hsamples 1 (by decide) with ⟨c, hc, hmask, hphase, -⟩
  -- The noise before it has taken two words, and this one takes one.
  have hnoise : (noise.lwe (behind noise 1 start)).1 = 1 := by decide +kernel
  have hwords : ChaCha20.maskAt pk.seed (1 * p.n) p.n =
      [⟨ChaCha20.word pk.seed 2⟩, ⟨ChaCha20.word pk.seed 3⟩] := by
    have hn : p.n = 2 := rfl
    rw [hn, ChaCha20.maskAt_succ, ChaCha20.maskAt_succ]
    rfl
  rw [hwords] at hmask
  rw [hnoise] at hphase
  exact ⟨hkey, pk, _, c, hrun, hlength, hc, hmask, hphase⟩

/-! ## Encryption -/

/-- Encryption under a compressed key expands one mask at a time and agrees with encryption under the
expanded key: both succeed, with one ciphertext, and leave the generator behind one word for each
body. -/
theorem encrypt_agrees (pk : CompressedPublicKey) (m : Bool) (g : γ) :
    ∃ c, pk.encrypt m g = .ok (c, (Sampler.bit.repeated pk.bodies.length g).2) ∧
      pk.decompress.encrypt m g = .ok (c, (Sampler.bit.repeated pk.bodies.length g).2) := by
  rcases pk.decompress.exists_encrypt (fun _ => dimension_of_mem_zeros_decompress) m g with
    ⟨c, hrun, -⟩
  rw [length_zeros_decompress] at hrun
  refine ⟨.ofSample c, ?_, hrun⟩
  rw [encrypt_eq_encrypt_decompress]
  exact hrun

end CompressedPublicKey

end TorusFHE
