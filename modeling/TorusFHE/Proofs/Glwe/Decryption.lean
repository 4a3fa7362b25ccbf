import TorusFHE.Proofs.Fourier.Transform
import TorusFHE.Proofs.Glwe.Phase

/-!
# Decryption of ring samples

Decryption returns the message and the noise that was drawn behind the mask, whatever stands in the
place of the product of masks and key.  In particular it may be computed with numbers that round, or
that saturate, and from any points in the place of a transformed key.

* `Glwe.maskedNoise_eq`: the noise is drawn behind the words of the mask;
* `Glwe.MaskProduct.ofPoints`: the product with a key that is given by its points;
* `Glwe.exists_maskProduct`: every key has a product by the transform;
* `Glwe.phase_encrypt`: decryption undoes encryption up to the noise.
-/

namespace TorusFHE

namespace Glwe

/-! ## Keys given by their points -/

section Points

variable (κ : Type) [FourierScalar κ]

theorem exists_mapM_forward {depth : Nat} {ps : List Polynomial}
    (hps : ∀ q ∈ ps, q.size = 2 ^ (depth + 1)) :
    ∃ fs, ps.mapM (fun q => (Transform.ofDepth κ depth).forward q.coeffs) = .ok fs ∧
      fs.length = ps.length ∧ ∀ f ∈ fs, f.length = 2 ^ depth :=
  exists_mapM_eq_ok fun q hq => Transform.exists_forward (hps q hq)

variable {κ}

/-- The product of masks with a key of which only the points are given. -/
def MaskProduct.ofPoints (t : Transform κ) (key : List (List κ)) : MaskProduct where
  rank := key.length
  degree := t.size
  product := fun mask => do t.innerProduct (← mask.mapM fun p => t.forward p.coeffs) key

/-- The product with a key is the one with its points. -/
theorem maskProduct_eq (t : Transform κ) (s : GlweKey) :
    maskProduct t s = do return .ofPoints t (← s.polys.mapM fun p => t.forward p.coeffs) :=
  rfl

/-- The inner product of transforms asks for as many points as the transform has, and no more. -/
theorem MaskProduct.total_ofPoints {depth : Nat} {key : List (List κ)}
    (hkey : ∀ points ∈ key, points.length = 2 ^ depth) :
    (ofPoints (Transform.ofDepth κ depth) key).Total where
  isPowerOfTwo := ⟨depth + 1, rfl⟩
  product := by
    intro mask hrank hmask
    rcases exists_mapM_forward κ hmask with ⟨fs, hfs, hlength, hpoints⟩
    have hpairs : fs.length = key.length := hlength.trans hrank
    rcases Transform.exists_innerProduct hpairs hpoints hkey with ⟨p, hp, hsize⟩
    exact ⟨p, by simp only [ofPoints, hfs, ok_bind, hp], hsize⟩

/-- The product by the transform asks no more of a mask than its shape. -/
theorem exists_maskProduct {depth : Nat} {s : GlweKey}
    (hs : ∀ q ∈ s.polys, q.size = 2 ^ (depth + 1)) :
    ∃ product, maskProduct (Transform.ofDepth κ depth) s = .ok product ∧
      product.rank = s.polys.length ∧ product.degree = 2 ^ (depth + 1) ∧ product.Total := by
  rcases exists_mapM_forward κ hs with ⟨key, hkey, hlength, hpoints⟩
  refine ⟨_, ?_, hlength, rfl, MaskProduct.total_ofPoints hpoints⟩
  rw [maskProduct_eq, hkey, ok_bind, pure_eq_ok]

end Points

/-! ## Draws -/

variable {γ : Type} [Generator γ]

/-- The coefficients of the mask are words in a row. -/
theorem flatMap_repeated_sampler (k n : Nat) (g : γ) :
    let mask := (Polynomial.sampler n Sampler.uniform).repeated k g
    (mask.1.flatMap Polynomial.coeffs, mask.2) = Sampler.uniform.repeated (k * n) g :=
  Sampler.repeated_blocks _ (fun _ => rfl) k g

/-- The noise of an encryption is drawn behind as many words as the mask has coefficients. -/
theorem maskedNoise_eq (k n : Nat) (noise : Sampler γ Torus) (g : γ) :
    maskedNoise k n noise g = noise.repeated n (Sampler.uniform.repeated (k * n) g).2 := by
  rw [maskedNoise, ← flatMap_repeated_sampler]

/-- The mask is drawn before anything else. -/
theorem mask_of_encrypt {s : MaskProduct} {m : Polynomial} {noise : Sampler γ Torus} {g final : γ}
    {c : GlweSample} (hdegree : s.degree.isPowerOfTwo)
    (h : encrypt s m noise g = .ok (c, final)) :
    c.mask.flatMap Polynomial.coeffs = (Sampler.uniform.repeated (s.rank * s.degree) g).1 := by
  rw [encrypt, drawPolynomial_eq_sample hdegree, Draw.mapM_sample] at h
  rcases Draw.bind_apply_eq_ok_iff.1 h with ⟨mask, g₁, hmask, hrest⟩
  rcases Draw.bind_apply_eq_ok_iff.1 hrest with ⟨e, g₂, -, hbody⟩
  rcases Draw.bind_apply_eq_ok_iff.1 hbody with ⟨body, g₃, -, hc⟩
  cases hc
  rw [← flatMap_repeated_sampler]
  exact congrArg (fun drawn => drawn.1.flatMap Polynomial.coeffs) (Except.ok.inj hmask).symm

/-! ## Decryption -/

/-- Decryption undoes encryption up to the noise, which is drawn behind the words of the mask.  This
holds of every function in the place of the product with the key, and the products by the transform,
with whatever numbers and from whatever points of a key, are among them. -/
theorem phase_encrypt :
    (∀ {κ : Type} [FourierScalar κ] {n : Nat}, 2 ≤ n → n.isPowerOfTwo →
      ∀ key : List (List κ), (∀ points ∈ key, points.length = n / 2) →
        ∃ t, Transform.ofSize n = .ok t ∧ (MaskProduct.ofPoints t key).Total ∧
          (MaskProduct.ofPoints t key).rank = key.length ∧
          (MaskProduct.ofPoints t key).degree = n) ∧
    ∀ s : MaskProduct, s.Total → ∀ m : Polynomial, m.size = s.degree →
      ∀ (noise : Sampler γ Torus) (g : γ),
        let words := Sampler.uniform.repeated (s.rank * s.degree) g
        let e := noise.repeated s.degree words.2
        ∃ c, encrypt s m noise g = .ok (c, e.2) ∧ c.Shaped s.rank s.degree ∧
          c.mask.flatMap Polynomial.coeffs = words.1 ∧ e.1.length = s.degree ∧
          phase s c = .ok ⟨List.zipWith (· + ·) m.coeffs e.1⟩ := by
  constructor
  · intro κ _ n hn hpower key hkey
    rcases Transform.exists_ofSize (κ := κ) hn hpower with ⟨depth, rfl, ht⟩
    have hhalf : 2 ^ (depth + 1) / 2 = 2 ^ depth := by
      rw [pow_succ, Nat.mul_div_cancel _ Nat.two_pos]
    exact ⟨_, ht, MaskProduct.total_ofPoints (hhalf ▸ hkey), rfl, rfl⟩
  · intro s hs m hm noise g words e
    rcases encrypt_follows hs hm noise g with ⟨c, hrun, hshaped, hphase⟩
    rw [maskedNoise_eq] at hrun hphase
    exact ⟨c, hrun, hshaped, mask_of_encrypt hs.isPowerOfTwo hrun, Sampler.length_repeated _ _ _,
      hphase⟩

/-- Two coefficients and a key of one polynomial, multiplied with machine numbers. -/
theorem phase_encrypt_machine_numbers :
    let key : List (List ComplexFloat) := [[⟨1, 0⟩]]
    let m : Polynomial := ⟨[⟨0x80000000⟩, ⟨0xffffffff⟩]⟩
    let start : CyclicWords := ⟨#[5, 0xdeadbeef, 0, 0x80000000, 1], 0⟩
    ∃ t, Transform.ofSize 2 = .ok t ∧ (MaskProduct.ofPoints t key).Total ∧
      ∃ c, encrypt (.ofPoints t key) m Sampler.binary start = .ok (c, ⟨start.words, 4⟩) ∧
        c.mask.flatMap Polynomial.coeffs = [⟨5⟩, ⟨0xdeadbeef⟩] ∧
        phase (.ofPoints t key) c = .ok ⟨[⟨0x80000000⟩, 0]⟩ := by
  intro key m start
  obtain ⟨hpoints, hdecrypt⟩ := @phase_encrypt CyclicWords _
  rcases hpoints (le_refl 2) ⟨1, rfl⟩ key (by simp [key]) with ⟨t, ht, htotal, hrank, hdegree⟩
  rcases hdecrypt _ htotal m hdegree.symm Sampler.binary start with
    ⟨c, hrun, -, hmask, -, hphase⟩
  rw [hrank, hdegree] at hrun hmask hphase
  have hsum : List.zipWith (· + ·) m.coeffs
      (Sampler.binary.repeated 2 (Sampler.uniform.repeated (key.length * 2) start).2).1 =
        [⟨0x80000000⟩, 0] := by decide
  rw [hsum] at hphase
  exact ⟨t, ht, htotal, c, hrun, hmask, hphase⟩

end Glwe

end TorusFHE
