import TorusFHE.Proofs.Lwe.SubsetSum
import TorusFHE.Proofs.Scheme.ClientKey
import TorusFHE.Scheme.PublicKey

/-!
# Encryption under public keys

The samples of a public key have their noises as phases, so an encryption stands for the bit plus
the noises of the samples that it selects.  A compressed key encrypts as the key that it expands to.

* `PublicKey.encrypt_hasPhase`: encryption under any key whose samples have known phases;
* `PublicKey.generateWith_phases` and `CompressedPublicKey.generateWith_phases`: the phases of the
  samples of generated keys;
* `CompressedPublicKey.encrypt_eq_encrypt_decompress`: both ways to use a compressed key are one.
-/

namespace TorusFHE

open LweSample

variable {γ : Type} [Generator γ] {ck : ClientKey}

namespace PublicKey

/-- The noises of the samples of a key, in order. -/
def noises (noise : Noise γ) (ck : ClientKey) : Sampler γ TorusVec :=
  (LweKey.maskedNoise ck.lweKey.dimension noise.lwe).repeated (publicKeySize ck.params.n)

@[simp] theorem length_noises (noise : Noise γ) (ck : ClientKey) (g : γ) :
    (noises noise ck g).1.length = publicKeySize ck.params.n :=
  Sampler.length_repeated _ _ _

/-- The samples of a generated key have their noises as phases. -/
theorem generateWith_phases (noise : Noise γ) (ck : ClientKey) (g : γ) :
    ∃ pk, generateWith noise ck g = .ok (pk, (noises noise ck g).2) ∧ pk.params = ck.params ∧
      HavePhases ck.lweKey pk.zeros (noises noise ck g).1 := by
  have hzeros := ck.lweKey.mapM_encrypt_follows (TorusVec.zeros (publicKeySize ck.params.n))
    noise.lwe
  rw [TorusVec.zeros, List.length_replicate] at hzeros
  rcases hzeros g with ⟨zeros, hrun, hphases⟩
  refine ⟨⟨zeros, ck.params⟩, ?_, rfl, ?_⟩
  · simp only [generateWith, Draw.bind_apply, hrun]
    rfl
  · rw [← TorusVec.zipWith_zeros_add (length_noises noise ck g)]
    exact hphases

/-- A key whose samples have the dimension of its parameters encrypts every bit. -/
theorem exists_encrypt {pk : PublicKey} (h : ∀ c ∈ pk.zeros, c.dimension = pk.params.n) (m : Bool)
    (g : γ) :
    ∃ c, pk.encrypt m g = .ok (.ofSample c, (Sampler.bit.repeated pk.zeros.length g).2) ∧
      c.dimension = pk.params.n := by
  rcases SubsetSum.exists_encrypt h (encodeBit m) g with ⟨c, hrun, hdim⟩
  exact ⟨c, by simp [encrypt, hrun], hdim⟩

/-- Encryption adds up the phases of the selected samples. -/
theorem encrypt_hasPhase (hck : ck.WellFormed) {pk : PublicKey} (hparams : pk.params = ck.params)
    {es : TorusVec} (hphases : HavePhases ck.lweKey pk.zeros es) (m : Bool) (g : γ) :
    let bits := Sampler.bit.repeated es.length g
    ∃ c, pk.encrypt m g = .ok (c, bits.2) ∧
      ck.HasPhase c (encodeBit m + SubsetSum.selectedSum bits.1 es) := by
  rcases SubsetSum.encrypt_phase hphases (encodeBit m) g with ⟨c, hrun, hphase⟩
  rw [hphases.length_eq] at hrun hphase
  rw [hck.dimension, ← hparams] at hrun
  exact ⟨.ofSample c, by simp [encrypt, hrun], ck.hasPhase_ofSample hck hphase⟩

end PublicKey

namespace CompressedPublicKey

/-- The noises of the samples of a key, in order; the seed is drawn before them. -/
def noises (noise : Noise γ) (ck : ClientKey) : Sampler γ TorusVec := fun g =>
  noise.lwe.repeated (publicKeySize ck.params.n) (Seed.draw g).2

@[simp] theorem length_noises (noise : Noise γ) (ck : ClientKey) (g : γ) :
    (noises noise ck g).1.length = publicKeySize ck.params.n :=
  Sampler.length_repeated _ _ _

/-- Expansion makes one sample of each body. -/
@[simp] theorem length_zeros_decompress (pk : CompressedPublicKey) :
    pk.decompress.zeros.length = pk.bodies.length :=
  SubsetSum.length_expand _ _ _

/-- Every sample of an expansion has the dimension of the key, generated or not. -/
theorem dimension_of_mem_zeros_decompress {pk : CompressedPublicKey} {c : LweSample}
    (hc : c ∈ pk.decompress.zeros) : c.dimension = pk.params.n :=
  SubsetSum.dimension_of_mem_expand hc

omit [Generator γ] in
/-- The drawn bodies make samples whose phases are the noises. -/
theorem drawBodies_phases (noise : Noise γ) (s : LweKey) (count : Nat) (acc : List Torus)
    (stream : ChaCha20.Stream) (g : γ) :
    let es := noise.lwe.repeated count g
    ∃ bodies,
      drawBodies noise s s.dimension count acc stream g = .ok (acc.reverse ++ bodies, es.2) ∧
      HavePhases s (SubsetSum.expand s.dimension bodies stream) es.1 := by
  induction count generalizing acc stream g with
  | zero => exact ⟨[], by simp [drawBodies], .nil⟩
  | succ count ih =>
    let next := ChaCha20.nextMask s.dimension stream
    have hlen : next.1.length = s.dimension := Sampler.length_repeated _ _ _
    rcases s.encryptWithMask_phase 0 next.1 hlen noise.lwe g with ⟨zero, hrun, hmask, hphase⟩
    rcases ih (zero.body :: acc) next.2 (noise.lwe g).2 with ⟨bodies, hruns, hphases⟩
    refine ⟨zero.body :: bodies, ?_, ?_⟩
    · have hstep : drawBodies noise s s.dimension (count + 1) acc stream g =
          (s.encryptWithMask 0 next.1 noise.lwe g >>= fun r =>
            drawBodies noise s s.dimension count (r.1.body :: acc) next.2 r.2) := rfl
      rw [hstep, hrun, ok_bind, hruns, Sampler.repeated_succ]
      simp
    · rw [SubsetSum.expand_cons, Sampler.repeated_succ]
      rw [zero_add] at hphase
      -- Expansion puts the body back behind the mask that it was made with.
      have hzero : (⟨next.1, zero.body⟩ : LweSample) = zero := by rw [← hmask]
      exact List.Forall₂.cons (hzero ▸ hphase) hphases

/-- The expanded samples of a generated key have their noises as phases. -/
theorem generateWith_phases (hck : ck.WellFormed) (noise : Noise γ) (g : γ) :
    ∃ pk, generateWith noise ck g = .ok (pk, (noises noise ck g).2) ∧ pk.params = ck.params ∧
      HavePhases ck.lweKey pk.decompress.zeros (noises noise ck g).1 := by
  let seed := (Seed.draw g).1
  obtain ⟨bodies, hrun, hphases⟩ :=
    drawBodies_phases noise ck.lweKey (publicKeySize ck.params.n) [] (.ofSeed seed)
      (Seed.draw g).2
  rw [hck.dimension] at hrun hphases
  refine ⟨⟨seed, bodies, ck.params⟩, ?_, rfl, hphases⟩
  simp only [generateWith, Draw.bind_apply, Draw.sample_apply, ok_bind]
  rw [hrun]
  rfl

/-- Expanding one mask at a time makes no difference. -/
theorem encrypt_eq_encrypt_decompress (pk : CompressedPublicKey) (m : Bool) :
    (pk.encrypt m : Draw γ Ciphertext) = pk.decompress.encrypt m := by
  rw [encrypt, SubsetSum.addSeeded_eq_foldlM]
  rfl

end CompressedPublicKey

end TorusFHE
