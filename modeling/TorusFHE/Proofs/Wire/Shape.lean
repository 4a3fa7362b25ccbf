import TorusFHE.Proofs.Scheme.Parameters
import TorusFHE.Proofs.Wire.Objects
import TorusFHE.Wire.Shape

/-!
# What shape checks accept

Each shape check accepts exactly the objects whose lengths are those that the declared dimension or
the parameters prescribe.  These are far below the largest length that a list can have in a format,
so whatever passes its check also fits its format.

* `Ciphertext.checkShape_eq_ok_iff` and the like: the accepted objects of every kind;
* `ServerKey.fits_of_checkShape` and the like: accepted objects fit.
-/

namespace TorusFHE

open LawfulFormat

/-! ## Single checks -/

theorem ShapeCheck.size_eq_ok_iff {part : SizedPart} {expected found : Nat} :
    ShapeCheck.size part expected found = .ok () ↔ expected = found := by
  by_cases h : expected = found <;> simp [ShapeCheck.size, h]

theorem ShapeCheck.dimension_eq_ok_iff {n : UInt64} :
    ShapeCheck.dimension n = .ok () ↔ 0 < n.toNat ∧ n.toNat ≤ Parameters.maxLweDimension := by
  by_cases h : 0 < n.toNat ∧ n.toNat ≤ Parameters.maxLweDimension <;>
    simp [ShapeCheck.dimension, h]

open ShapeCheck

theorem Parameters.checkShape_eq_ok_iff {p : Parameters} : p.checkShape = .ok () ↔ p.Valid := by
  rw [checkShape, mapError_eq_ok_iff, validate_eq_ok_iff]

/-! ## Accepted objects -/

theorem Ciphertext.checkShape_eq_ok_iff {c : Ciphertext} :
    c.checkShape = .ok () ↔
      (0 < c.lweDimension.toNat ∧ c.lweDimension.toNat ≤ Parameters.maxLweDimension) ∧
        c.lweDimension.toNat = c.sample.dimension := by
  simp only [checkShape, check_bind_eq_ok_iff, dimension_eq_ok_iff, size_eq_ok_iff]

theorem CompressedCiphertext.checkShape_eq_ok_iff {c : CompressedCiphertext} :
    c.checkShape = .ok () ↔
      0 < c.lweDimension.toNat ∧ c.lweDimension.toNat ≤ Parameters.maxLweDimension :=
  dimension_eq_ok_iff

variable {p : Parameters}

theorem GlweSample.checkShape_eq_ok_iff {c : GlweSample} :
    c.checkShape p = .ok () ↔
      p.k = c.mask.length ∧ ∀ q ∈ c.mask ++ [c.body], p.degree = q.size := by
  simp only [checkShape, check_bind_eq_ok_iff, forM_eq_ok_iff, size_eq_ok_iff]

theorem GgswSample.checkShape_eq_ok_iff {c : GgswSample} :
    c.checkShape p = .ok () ↔
      (p.k + 1) * p.pbsLevel.toNat = c.rows.length ∧
        ∀ row ∈ c.rows, row.checkShape p = .ok () := by
  simp only [checkShape, check_bind_eq_ok_iff, forM_eq_ok_iff, size_eq_ok_iff]

theorem KeySwitchingKey.checkShape_eq_ok_iff {k : KeySwitchingKey} :
    k.checkShape p = .ok () ↔
      p.k * p.degree * p.ksLevel.toNat = k.samples.length ∧
        ∀ c ∈ k.samples, p.n = c.dimension := by
  simp only [checkShape, check_bind_eq_ok_iff, forM_eq_ok_iff, size_eq_ok_iff]

theorem ServerKey.checkShape_eq_ok_iff {k : ServerKey} :
    k.checkShape = .ok () ↔
      k.params.Valid ∧ k.params.n = k.bootstrappingKey.length ∧
        (∀ c ∈ k.bootstrappingKey, c.checkShape k.params = .ok ()) ∧
        k.keySwitchingKey.checkShape k.params = .ok () := by
  simp only [checkShape, check_bind_eq_ok_iff, forM_eq_ok_iff, size_eq_ok_iff,
    Parameters.checkShape_eq_ok_iff]

theorem PublicKey.checkShape_eq_ok_iff {k : PublicKey} :
    k.checkShape = .ok () ↔
      k.params.Valid ∧ publicKeySize k.params.n = k.zeros.length ∧
        ∀ c ∈ k.zeros, k.params.n = c.dimension := by
  simp only [checkShape, check_bind_eq_ok_iff, forM_eq_ok_iff, size_eq_ok_iff,
    Parameters.checkShape_eq_ok_iff]

theorem CompressedPublicKey.checkShape_eq_ok_iff {k : CompressedPublicKey} :
    k.checkShape = .ok () ↔
      k.params.Valid ∧ publicKeySize k.params.n = k.bodies.length := by
  simp only [checkShape, check_bind_eq_ok_iff, size_eq_ok_iff, Parameters.checkShape_eq_ok_iff]

/-! ## Accepted objects fit -/

theorem publicKeySize_lt (n : Nat) : publicKeySize n < 2 ^ 64 :=
  (Nat.min_le_right _ _).trans_lt (by decide)

theorem Ciphertext.fits_of_checkShape {c : Ciphertext} (h : c.checkShape = .ok ()) : Fits c := by
  rcases checkShape_eq_ok_iff.1 h with ⟨-, hdim⟩
  have hlt : c.sample.dimension < 2 ^ 64 := by
    rw [← hdim]
    exact c.lweDimension.toNat_lt
  exact ⟨True.intro, fits_lweSample hlt⟩

theorem GlweSample.fits_of_checkShape {c : GlweSample} (hp : p.Valid)
    (h : c.checkShape p = .ok ()) : Fits c := by
  rcases checkShape_eq_ok_iff.1 h with ⟨hmask, hpolys⟩
  apply fits_glweSample
  · simpa [hmask] using hp.k_lt
  · intro q hq
    simpa [hpolys q hq] using hp.degree_lt

theorem GgswSample.fits_of_checkShape {c : GgswSample} (hp : p.Valid)
    (h : c.checkShape p = .ok ()) : Fits c := by
  rcases checkShape_eq_ok_iff.1 h with ⟨hlen, hrows⟩
  constructor
  · simpa [hlen] using hp.rows_lt
  · intro row hrow
    exact GlweSample.fits_of_checkShape hp (hrows row hrow)

theorem KeySwitchingKey.fits_of_checkShape {k : KeySwitchingKey} (hp : p.Valid)
    (h : k.checkShape p = .ok ()) : Fits k := by
  rcases checkShape_eq_ok_iff.1 h with ⟨hlen, hdim⟩
  constructor
  · simpa [hlen] using hp.samples_lt
  · intro c hc
    exact fits_lweSample (by simpa [hdim c hc] using hp.n_lt)

theorem ServerKey.fits_of_checkShape {k : ServerKey} (h : k.checkShape = .ok ()) : Fits k := by
  rcases checkShape_eq_ok_iff.1 h with ⟨hp, hlen, hggsw, hks⟩
  refine ⟨⟨?_, ?_⟩, KeySwitchingKey.fits_of_checkShape hp hks, fits_parameters _⟩
  · simpa [hlen] using hp.n_lt
  · intro c hc
    exact GgswSample.fits_of_checkShape hp (hggsw c hc)

theorem PublicKey.fits_of_checkShape {k : PublicKey} (h : k.checkShape = .ok ()) : Fits k := by
  rcases checkShape_eq_ok_iff.1 h with ⟨hp, hlen, hdim⟩
  refine ⟨⟨?_, ?_⟩, fits_parameters _⟩
  · simpa [hlen] using publicKeySize_lt k.params.n
  · intro c hc
    exact fits_lweSample (by simpa [hdim c hc] using hp.n_lt)

theorem CompressedPublicKey.fits_of_checkShape {k : CompressedPublicKey}
    (h : k.checkShape = .ok ()) : Fits k := by
  rcases checkShape_eq_ok_iff.1 h with ⟨-, hlen⟩
  have hlt : k.bodies.length < 2 ^ 64 := by
    simpa [hlen] using publicKeySize_lt k.params.n
  exact ⟨fits_seed k.seed, fits_torusVec hlt, fits_parameters _⟩

end TorusFHE
