import TorusFHE.Proofs.Wire.Format

/-!
# Lawful formats of the public objects

Every object is made of its fields and nothing else, so each format is lawful because the formats of
the fields are.  An object fits if its lists do.
-/

namespace TorusFHE

open LawfulFormat

instance : LawfulFormat Torus :=
  .via (fun _ => rfl) fun _ => rfl

instance : LawfulFormat Binary64 :=
  .via (fun _ => rfl) fun _ => rfl

instance : LawfulFormat Seed :=
  .via (fun _ => rfl) fun _ => rfl

instance : LawfulFormat Polynomial :=
  .via (fun _ => rfl) fun _ => rfl

instance : LawfulFormat LweSample := by
  delta instWireFormatLweSample
  exact .via (fun _ => rfl) fun _ => rfl

instance : LawfulFormat SeededSample := by
  delta instWireFormatSeededSample
  exact .via (fun _ => rfl) fun _ => rfl

instance : LawfulFormat KeySwitchingKey :=
  .via (fun _ => rfl) fun _ => rfl

instance : LawfulFormat GlweSample := by
  delta instWireFormatGlweSample
  exact .via (fun _ => rfl) fun _ => rfl

instance : LawfulFormat GgswSample :=
  .via (fun _ => rfl) fun _ => rfl

instance : LawfulFormat Parameters := by
  delta instWireFormatParameters
  exact .via (fun _ => rfl) fun _ => rfl

instance : LawfulFormat Ciphertext := by
  delta instWireFormatCiphertext
  exact .via (fun _ => rfl) fun _ => rfl

instance : LawfulFormat CompressedCiphertext := by
  delta instWireFormatCompressedCiphertext
  exact .via (fun _ => rfl) fun _ => rfl

instance : LawfulFormat ServerKey := by
  delta instWireFormatServerKey
  exact .via (fun _ => rfl) fun _ => rfl

instance : LawfulFormat PublicKey := by
  delta instWireFormatPublicKey
  exact .via (fun _ => rfl) fun _ => rfl

instance : LawfulFormat CompressedPublicKey := by
  delta instWireFormatCompressedPublicKey
  exact .via (fun _ => rfl) fun _ => rfl

/-! ## Which objects fit -/

theorem fits_torusVec {v : TorusVec} (h : v.length < 2 ^ 64) : Fits v :=
  ⟨h, fun _ _ => trivial⟩

theorem fits_seed (s : Seed) : Fits s :=
  fun _ _ => trivial

theorem fits_polynomial {p : Polynomial} (h : p.size < 2 ^ 64) : Fits p :=
  fits_torusVec h

theorem fits_lweSample {c : LweSample} (h : c.dimension < 2 ^ 64) : Fits c :=
  ⟨fits_torusVec h, trivial⟩

theorem fits_compressedCiphertext (c : CompressedCiphertext) : Fits c :=
  ⟨trivial, fits_seed c.sample.seed, trivial⟩

theorem fits_glweSample {c : GlweSample} (h : c.mask.length < 2 ^ 64)
    (hpolys : ∀ p ∈ c.mask ++ [c.body], p.size < 2 ^ 64) : Fits c := by
  refine ⟨⟨h, ?_⟩, fits_polynomial (hpolys c.body (by simp))⟩
  intro p hp
  exact fits_polynomial (hpolys p (by simp [hp]))

theorem fits_parameters (p : Parameters) : Fits p :=
  ⟨trivial, trivial, trivial, trivial, trivial, trivial, trivial, trivial, trivial⟩

end TorusFHE
