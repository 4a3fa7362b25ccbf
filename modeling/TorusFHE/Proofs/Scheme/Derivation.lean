import TorusFHE.Proofs.Scheme.PublicKey
import TorusFHE.Proofs.Wire.Buffer
import TorusFHE.Scheme.ServerKey

/-!
# Derivations of ciphertexts

A ciphertext for a client key is encrypted with that key or a public key, or it is trivial; it may
then be negated and sent through a buffer any number of times.  A derivation is one such way.  It
fixes the bit that is meant and the error that the phase carries: the noise that was drawn, summed
over the selected samples of a public key and negated with the bit.

* `Derivation.run`: the ciphertext, by the operations of the library;
* `Derivation.bit` and `Derivation.error`: what it stands for;
* `Derivation.run_hasPhase`: every derivation ends in a ciphertext of just this phase, so that it
  decrypts to the bit exactly if the error is in the window of the bit.
-/

namespace TorusFHE

/-- A ciphertext for a key passes the shape check. -/
theorem ClientKey.HasPhase.checkShape {ck : ClientKey} (hck : ck.WellFormed) {c : Ciphertext}
    {x : Torus} (h : ck.HasPhase c x) : c.checkShape = .ok () := by
  rw [Ciphertext.checkShape_eq_ok_iff, h.declared]
  exact ⟨hck.valid.lweDimension, ((LweSample.dimension_of_phase h.phase).trans hck.dimension).symm⟩

/-- The ways to come by a ciphertext for a client key.  Every draw comes with the state that its
generator is in. -/
inductive Derivation (γ : Type) (ck : ClientKey) where
  /-- Encryption with the client key. -/
  | encrypt (m : Bool) (g : γ)
  /-- Compressed encryption with the client key, then decompression. -/
  | encryptCompressed (m : Bool) (g : γ)
  /-- Encryption with the public key generated from state `key`. -/
  | encryptPublic (key : γ) (m : Bool) (g : γ)
  /-- Encryption with the compressed public key generated from state `key`. -/
  | encryptCompressedPublic (key : γ) (m : Bool) (g : γ)
  /-- Encryption with the same key after it was decompressed. -/
  | encryptDecompressedPublic (key : γ) (m : Bool) (g : γ)
  /-- A constant, by any server key of the same parameters. -/
  | trivial (sk : ServerKey) (hparams : sk.params = ck.params) (m : Bool)
  /-- Negation of a ciphertext. -/
  | not (d : Derivation γ ck)
  /-- Writing a ciphertext to a buffer and reading it back. -/
  | reload (d : Derivation γ ck)

namespace Derivation

variable {γ : Type} [Generator γ] {ck : ClientKey}

/-- The ciphertext at the end of a derivation. -/
def run (noise : Noise γ) : Derivation γ ck → Except Fault (Except Error Ciphertext)
  | encrypt m g => do
    let (c, _) ← ck.encryptWith noise m g
    return .ok c
  | encryptCompressed m g => do
    let (c, _) ← ck.encryptCompressedWith noise m g
    return .ok c.decompress
  | encryptPublic key m g => do
    let (pk, _) ← PublicKey.generateWith noise ck key
    let (c, _) ← pk.encrypt m g
    return .ok c
  | encryptCompressedPublic key m g => do
    let (pk, _) ← CompressedPublicKey.generateWith noise ck key
    let (c, _) ← pk.encrypt m g
    return .ok c
  | encryptDecompressedPublic key m g => do
    let (pk, _) ← CompressedPublicKey.generateWith noise ck key
    let (c, _) ← pk.decompress.encrypt m g
    return .ok c
  | trivial sk _ m => return .ok (sk.trivialEncrypt m)
  | not d => return (← run noise d).map Ciphertext.not
  | reload d => return (← run noise d).bind fun c => Buffer.deserialize (Buffer.serialize c)

omit [Generator γ] in
/-- The bit that a derivation encrypts. -/
def bit : Derivation γ ck → Bool
  | encrypt m _ => m
  | encryptCompressed m _ => m
  | encryptPublic _ m _ => m
  | encryptCompressedPublic _ m _ => m
  | encryptDecompressedPublic _ m _ => m
  | trivial _ _ m => m
  | not d => !d.bit
  | reload d => d.bit

/-- The sum of the noises that the bits drawn from a state select. -/
def selectedNoise (noises : TorusVec) (g : γ) : Torus :=
  SubsetSum.selectedSum (Sampler.bit.repeated noises.length g).1 noises

/-- The error that a derivation brings into the phase. -/
def error (noise : Noise γ) : Derivation γ ck → Torus
  | encrypt _ g => (LweKey.maskedNoise ck.lweKey.dimension noise.lwe g).1
  | encryptCompressed _ g => (noise.lwe (Seed.draw g).2).1
  | encryptPublic key _ g => selectedNoise (PublicKey.noises noise ck key).1 g
  | encryptCompressedPublic key _ g => selectedNoise (CompressedPublicKey.noises noise ck key).1 g
  | encryptDecompressedPublic key _ g => selectedNoise (CompressedPublicKey.noises noise ck key).1 g
  | trivial _ _ _ => 0
  | not d => -d.error noise
  | reload d => d.error noise

/-- Every derivation ends in a ciphertext for the key, whose phase is that of the bit plus the
error. -/
theorem run_hasPhase (hck : ck.WellFormed) (noise : Noise γ) (d : Derivation γ ck) :
    ∃ c, d.run noise = .ok (.ok c) ∧ ck.HasPhase c (encodeBit d.bit + d.error noise) := by
  induction d with
  | encrypt m g =>
    rcases ck.encryptWith_hasPhase hck noise m g with ⟨c, hrun, hphase⟩
    exact ⟨c, by simp [run, hrun], hphase⟩
  | encryptCompressed m g =>
    rcases ck.encryptCompressedWith_hasPhase hck noise m g with ⟨c, hrun, hphase⟩
    exact ⟨c.decompress, by simp [run, hrun], hphase⟩
  | encryptPublic key m g =>
    rcases PublicKey.generateWith_phases noise ck key with ⟨pk, hkey, hparams, hphases⟩
    rcases pk.encrypt_hasPhase hck hparams hphases m g with ⟨c, hrun, hphase⟩
    exact ⟨c, by simp [run, hkey, hrun], hphase⟩
  | encryptCompressedPublic key m g =>
    rcases CompressedPublicKey.generateWith_phases hck noise key with ⟨pk, hkey, hparams, hphases⟩
    rcases pk.decompress.encrypt_hasPhase hck hparams hphases m g with ⟨c, hrun, hphase⟩
    -- The key is not expanded here, but encrypts as if it were.
    rw [← pk.encrypt_eq_encrypt_decompress] at hrun
    exact ⟨c, by simp [run, hkey, hrun], hphase⟩
  | encryptDecompressedPublic key m g =>
    rcases CompressedPublicKey.generateWith_phases hck noise key with ⟨pk, hkey, hparams, hphases⟩
    rcases pk.decompress.encrypt_hasPhase hck hparams hphases m g with ⟨c, hrun, hphase⟩
    exact ⟨c, by simp [run, hkey, hrun], hphase⟩
  | trivial sk hparams m =>
    refine ⟨sk.trivialEncrypt m, rfl, ?_⟩
    rw [error, add_zero, ServerKey.trivialEncrypt, hparams]
    exact ck.hasPhase_trivial hck m
  | not d ih =>
    rcases ih with ⟨c, hrun, hphase⟩
    refine ⟨c.not, by simp [run, hrun, Except.map], ?_⟩
    rw [bit, error, encodeBit_not, ← neg_add]
    exact hphase.not hck
  | reload d ih =>
    rcases ih with ⟨c, hrun, hphase⟩
    -- A ciphertext for the key has the right shape, so the buffer is read back.
    have hshape : c.checkShape = .ok () := hphase.checkShape hck
    have hread : Buffer.deserialize (Buffer.serialize c) = .ok c :=
      Buffer.deserialize_serialize (Ciphertext.fits_of_checkShape hshape) hshape
    exact ⟨c, by simp [run, hrun, hread, Except.bind], hphase⟩

/-- However a ciphertext for a generated key came about, its phase is that of the bit plus the error,
and it decrypts to the bit exactly if the error is in the window of the bit. -/
theorem run_decrypt_iff {δ : Type} [Generator δ] {p : Parameters} {start final : δ}
    (hkey : ClientKey.generate p start = .ok (.ok ck, final)) (noise : Noise γ)
    (d : Derivation γ ck) :
    ∃ c, d.run noise = .ok (.ok c) ∧
      c.sample.phase ck.lweKey = .ok (encodeBit d.bit + d.error noise) ∧
      (∃ b, ck.decrypt c = .ok (.ok b)) ∧
      (ck.decrypt c = .ok (.ok d.bit) ↔ InDecodingWindow d.bit (d.error noise).centered) := by
  have hck : ck.WellFormed := (ClientKey.wellFormed_of_generate hkey).1
  rcases run_hasPhase hck noise d with ⟨c, hrun, hphase⟩
  have hdecrypt : ck.decrypt c = .ok (.ok (decodeBit (encodeBit d.bit + d.error noise))) :=
    hphase.decrypt hck
  refine ⟨c, hrun, hphase.phase, ⟨_, hdecrypt⟩, ?_⟩
  rw [hdecrypt, Except.ok.injEq, Except.ok.injEq]
  exact decodeBit_encodeBit_add_iff d.bit (d.error noise)

/-- With an error of minus an eighth of a turn, true is decrypted as it is, and its negation is
not. -/
theorem run_decrypt_iff_boundary :
    let p : Parameters :=
      ⟨2, 1, 2, ⟨0x3f50000000000000⟩, ⟨0x3f50000000000000⟩, 4, 1, 4, 1⟩
    let start : CyclicWords := ⟨#[0x80000003, 0x10000005, 0xc0000001], 0⟩
    let noise : Noise CyclicWords := ⟨fun g => (⟨0xe0000000⟩, g), fun g => (0, g)⟩
    ∃ ck final, ClientKey.generate p start = .ok (.ok ck, final) ∧
      let d : Derivation CyclicWords ck := .reload (.encrypt true start)
      (∃ c, d.run noise = .ok (.ok c) ∧ ck.decrypt c = .ok (.ok true)) ∧
      ∃ c, d.not.run noise = .ok (.ok c) ∧ ck.decrypt c ≠ .ok (.ok false) := by
  intro p start noise
  let ck : ClientKey := ⟨⟨[1, 0]⟩, ⟨[⟨[1, 1]⟩]⟩, p⟩
  have hvalid : p.Valid := by decide +kernel
  have hkey : ClientKey.generate p start = .ok (.ok ck, ⟨start.words, 1⟩) := by
    rw [ClientKey.generate, Parameters.validate_eq_ok_iff.2 hvalid]
    with_unfolding_all rfl
  refine ⟨ck, _, hkey, ?_, ?_⟩
  · rcases run_decrypt_iff hkey noise (.reload (.encrypt true start)) with ⟨c, hrun, -, -, hiff⟩
    exact ⟨c, hrun, hiff.2 (by decide)⟩
  · rcases run_decrypt_iff hkey noise (.not (.reload (.encrypt true start))) with
        ⟨c, hrun, -, -, hiff⟩
    exact ⟨c, hrun, fun h => absurd (hiff.1 h) (by decide)⟩

end Derivation

end TorusFHE
