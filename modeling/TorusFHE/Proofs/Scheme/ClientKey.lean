import TorusFHE.Proofs.Lwe.Phase
import TorusFHE.Proofs.Scheme.Parameters
import TorusFHE.Scheme.ClientKey

/-!
# Encryption and decryption under a client key

The bit of a ciphertext is read off its phase, and it is the encrypted one exactly as long as the
error of the phase stays within a window.  The window is not symmetric: half a turn is read as
false, a whole one as true, so that each bit keeps the lower end of its window and loses the upper.

* `ClientKey.WellFormed`: what holds of every generated key;
* `ClientKey.HasPhase`: ciphertexts for a key, with their phases;
* `ClientKey.encryptWith_hasPhase` and `ClientKey.encryptCompressedWith_hasPhase`: fresh
  encryptions;
* `decodeBit_encodeBit_add_iff`: which errors decoding tolerates.
-/

namespace TorusFHE

/-! ## Decoding -/

/-- The errors, in centred units, that leave the bit of an encoding as it is. -/
def InDecodingWindow (m : Bool) (e : Int) : Prop :=
  if m then -2 ^ 29 ≤ e ∧ e < 3 * 2 ^ 29 else -(3 * 2 ^ 29) ≤ e ∧ e < 2 ^ 29

instance (m : Bool) (e : Int) : Decidable (InDecodingWindow m e) :=
  inferInstanceAs (Decidable (if m then _ else _))

theorem encodeBit_not (m : Bool) : encodeBit (!m) = -encodeBit m := by
  cases m <;> simp [encodeBit]

/-- An encoded bit is an eighth of a turn, forwards or backwards. -/
theorem encodeBit_eq_intCast (m : Bool) :
    encodeBit m = ((if m then 2 ^ 29 else -2 ^ 29 : Int) : Torus) := by
  cases m <;> decide

/-- A bit survives exactly the errors in its window. -/
theorem decodeBit_encodeBit_add_iff (m : Bool) (e : Torus) :
    decodeBit (encodeBit m + e) = m ↔ InDecodingWindow m e.centered := by
  let shift : Int := if m then 2 ^ 29 else -2 ^ 29
  let phase : Torus := encodeBit m + e
  have hcast : phase = ((shift + e.centered : Int) : Torus) := by
    simp [phase, shift, encodeBit_eq_intCast]
  -- The centred phase and the shifted error differ by whole turns only.
  have hcongr : phase.centered % 2 ^ 32 = (shift + e.centered) % 2 ^ 32 := by
    rw [← Torus.intCast_eq_intCast_iff, Torus.intCast_centered, hcast]
  have hphase : -2 ^ 31 ≤ phase.centered ∧ phase.centered < 2 ^ 31 :=
    ⟨Torus.neg_le_centered _, Torus.centered_lt _⟩
  have herror : -2 ^ 31 ≤ e.centered ∧ e.centered < 2 ^ 31 :=
    ⟨Torus.neg_le_centered _, Torus.centered_lt _⟩
  have hhalf : decodeBit phase = true ↔ 0 ≤ phase.centered := by
    rw [decodeBit, Bool.not_eq_true', ← Bool.not_eq_true, Torus.upperHalf_iff, not_lt]
  cases m with
  | true =>
    rw [hhalf]
    simp only [shift, if_true] at hcongr
    simp only [InDecodingWindow, if_true]
    omega
  | false =>
    rw [← Bool.not_eq_true, hhalf]
    simp only [shift, Bool.false_eq_true, if_false] at hcongr
    simp only [InDecodingWindow, Bool.false_eq_true, if_false]
    omega

namespace ClientKey

/-! ## Generated keys -/

/-- Keys of valid parameters and of the dimension that these prescribe. -/
structure WellFormed (ck : ClientKey) : Prop where
  valid : ck.params.Valid
  dimension : ck.lweKey.dimension = ck.params.n

theorem wellFormed_of_generate {δ : Type} [Generator δ] {p : Parameters} {ck : ClientKey}
    {g g' : δ} (h : generate p g = .ok (.ok ck, g')) : ck.WellFormed ∧ ck.params = p := by
  cases hvalid : p.validate with
  | error e => simp [generate, hvalid] at h
  | ok _ =>
    simp only [generate, hvalid, Draw.bind_apply_eq_ok_iff, Draw.sample_apply, Draw.pure_apply,
      Except.ok.injEq, Prod.mk.injEq] at h
    rcases h with ⟨lweKey, g₁, hlwe, glweKey, g₂, -, rfl, -⟩
    have hkey : lweKey = (LweKey.generate p.n g).1 := by rw [hlwe]
    refine ⟨⟨Parameters.validate_eq_ok_iff.1 hvalid, ?_⟩, rfl⟩
    rw [hkey]
    exact Sampler.length_repeated _ _ _

/-! ## Ciphertexts for a key -/

/-- Ciphertexts of the dimension of a key, in declaration and in fact, with their phases. -/
structure HasPhase (ck : ClientKey) (c : Ciphertext) (x : Torus) : Prop where
  declared : c.lweDimension.toNat = ck.params.n
  phase : c.sample.phase ck.lweKey = .ok x

variable {ck : ClientKey} {x : Torus}

/-- In its own dimension a key reads the bit off the phase. -/
theorem decrypt_of_phase {c : Ciphertext} (hdeclared : c.lweDimension.toNat = ck.params.n)
    (hdim : c.sample.dimension = ck.params.n) (h : c.sample.phase ck.lweKey = .ok x) :
    ck.decrypt c = .ok (.ok (decodeBit x)) := by
  rw [ClientKey.decrypt, if_pos ⟨hdeclared, hdim⟩, h]
  rfl

/-- Ciphertexts of another dimension are refused, whatever dimension they declare. -/
theorem decrypt_of_dimension_ne {c : Ciphertext} (h : c.sample.dimension ≠ ck.params.n) :
    ck.decrypt c = .ok (.error (.dimensionMismatch ck.params.n c.sample.dimension)) :=
  if_neg fun hboth => h hboth.2

theorem hasPhase_ofSample (hck : ck.WellFormed) {c : LweSample}
    (h : c.phase ck.lweKey = .ok x) : ck.HasPhase (.ofSample c) x := by
  refine ⟨?_, h⟩
  -- The dimension is that of 64-bit parameters, so that declaring it loses nothing.
  have hdim : c.dimension = ck.params.lweDimension.toNat :=
    (LweSample.dimension_of_phase h).trans hck.dimension
  rw [Ciphertext.ofSample, hdim, UInt64.ofNat_toNat]
  rfl

theorem hasPhase_trivial (hck : ck.WellFormed) (m : Bool) :
    ck.HasPhase (.trivial ck.params.n m) (encodeBit m) := by
  have hphase := LweSample.phase_trivial (s := ck.lweKey) (encodeBit m)
  rw [hck.dimension] at hphase
  exact hasPhase_ofSample hck hphase

theorem HasPhase.not (hck : ck.WellFormed) {c : Ciphertext} (h : ck.HasPhase c x) :
    ck.HasPhase c.not (-x) :=
  hasPhase_ofSample hck (LweSample.phase_neg h.phase)

/-- A ciphertext for the key decrypts to the bit of its phase. -/
theorem HasPhase.decrypt (hck : ck.WellFormed) {c : Ciphertext} (h : ck.HasPhase c x) :
    ck.decrypt c = .ok (.ok (decodeBit x)) := by
  have hdim : c.sample.dimension = ck.params.n :=
    (LweSample.dimension_of_phase h.phase).trans hck.dimension
  exact decrypt_of_phase h.declared hdim h.phase

/-! ## Fresh encryptions -/

variable {γ : Type} [Generator γ]

/-- Encryption encodes the bit and adds the noise. -/
theorem encryptWith_hasPhase (hck : ck.WellFormed) (noise : Noise γ) (m : Bool) (g : γ) :
    let e := LweKey.maskedNoise ck.lweKey.dimension noise.lwe g
    ∃ c, ck.encryptWith noise m g = .ok (c, e.2) ∧ ck.HasPhase c (encodeBit m + e.1) := by
  rcases ck.lweKey.encrypt_phase (encodeBit m) noise.lwe g with ⟨c, hrun, hphase⟩
  exact ⟨.ofSample c, by simp [encryptWith, hrun], hasPhase_ofSample hck hphase⟩

/-- So does compressed encryption, once the mask is expanded. -/
theorem encryptCompressedWith_hasPhase (hck : ck.WellFormed) (noise : Noise γ) (m : Bool)
    (g : γ) :
    let e := noise.lwe (Seed.draw g).2
    ∃ c, ck.encryptCompressedWith noise m g = .ok (c, e.2) ∧
      ck.HasPhase c.decompress (encodeBit m + e.1) := by
  rcases ck.lweKey.encryptSeeded_phase (encodeBit m) (Seed.draw g).1 noise.lwe (Seed.draw g).2 with
      ⟨c, hrun, hphase⟩
  refine ⟨⟨ck.params.lweDimension, c⟩, by simp [encryptCompressedWith, hrun], ?_⟩
  rw [hck.dimension] at hphase
  exact hasPhase_ofSample hck hphase

end ClientKey

end TorusFHE
