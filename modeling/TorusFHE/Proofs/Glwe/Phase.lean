import TorusFHE.Glwe.Sample
import TorusFHE.Proofs.Random.Draw
import TorusFHE.Proofs.Torus.Polynomial

/-!
# Phases of ring samples

Encryption adds to the body what decryption takes away again, the product of the mask and the key.
As both compute it by the same function from the same mask, it cancels whatever it is, and all that
is asked of it is a size.

* `Glwe.MaskProduct.Total`: what is asked of a product of masks and a key;
* `GlweSample.Shaped`: samples of one rank and size;
* `GlweKey.generate_eq_sample`: keys are drawn without a fault;
* `Glwe.encrypt_follows`: encryption succeeds, and the phase is the message plus the noise.
-/

namespace TorusFHE

variable {γ : Type} {n k : Nat}

/-! ## Drawn polynomials -/

namespace Polynomial

/-- One draw for each of `n` coefficients. -/
def sampler (n : Nat) (s : Sampler γ Torus) : Sampler γ Polynomial := fun g =>
  (⟨(s.repeated n g).1⟩, (s.repeated n g).2)

@[simp] theorem size_sampler (s : Sampler γ Torus) (g : γ) : (sampler n s g).1.size = n :=
  Sampler.length_repeated _ _ _

end Polynomial

/-- Polynomials of a power of two are drawn without a fault. -/
theorem Glwe.drawPolynomial_eq_sample (hn : n.isPowerOfTwo) (s : Sampler γ Torus) :
    Glwe.drawPolynomial n s = Draw.sample (Polynomial.sampler n s) := by
  funext g
  have hlen : (s.repeated n g).1.length = n := Sampler.length_repeated _ _ _
  simp [drawPolynomial, Polynomial.ofVec_eq_ok hn hlen, Polynomial.sampler]

/-! ## Keys -/

namespace GlweKey

variable [Generator γ]

theorem generate_eq_sample (hn : n.isPowerOfTwo) :
    (generate k n : Draw γ GlweKey) = do
      return ⟨← Draw.sample ((Polynomial.sampler n Sampler.binary).repeated k)⟩ := by
  have hpolys : (generate k n : Draw γ GlweKey) = do
      return ⟨← (List.replicate k ()).mapM fun _ => Glwe.drawPolynomial n Sampler.binary⟩ := rfl
  rw [hpolys, Glwe.drawPolynomial_eq_sample hn, Draw.mapM_sample]

end GlweKey

/-! ## Samples of one shape -/

/-- Samples of rank `k` whose polynomials have `n` coefficients. -/
structure GlweSample.Shaped (k n : Nat) (c : GlweSample) : Prop where
  rank : c.mask.length = k
  mask : ∀ q ∈ c.mask, q.size = n
  body : c.body.size = n

namespace Glwe

/-- The product is defined on masks of the right shape, and its size is that of the polynomials of
the key. -/
structure MaskProduct.Total (s : MaskProduct) : Prop where
  isPowerOfTwo : s.degree.isPowerOfTwo
  product : ∀ mask : List Polynomial, mask.length = s.rank → (∀ q ∈ mask, q.size = s.degree) →
    ∃ p, s.product mask = .ok p ∧ p.size = s.degree

variable {s : MaskProduct} {c : GlweSample} {p : Polynomial}

/-- Samples of the right shape have a phase. -/
theorem phase_eq_ok_iff (hs : s.Total) (hc : c.Shaped s.rank s.degree) :
    phase s c = .ok p ↔
      ∃ q, s.product c.mask = .ok q ∧
        p = ⟨List.zipWith (· - ·) c.body.coeffs q.coeffs⟩ := by
  rcases hs.product c.mask hc.rank hc.mask with ⟨q, hq, hsize⟩
  have hsub := Polynomial.sub_eq_ok hc.body hsize hs.isPowerOfTwo
  simp [phase, hq, hsub, eq_comm]

variable [Generator γ]

/-- The noise of an encryption that draws its mask of `k` polynomials first. -/
def maskedNoise (k n : Nat) (noise : Sampler γ Torus) : Sampler γ TorusVec := fun g =>
  noise.repeated n ((Polynomial.sampler n Sampler.uniform).repeated k g).2

@[simp] theorem length_maskedNoise (k n : Nat) (noise : Sampler γ Torus) (g : γ) :
    (maskedNoise k n noise g).1.length = n :=
  Sampler.length_repeated _ _ _

/-- The body loses the product of mask and key again, whatever it is. -/
theorem zipWith_sub_cancel {product e m : TorusVec} (he : e.length = product.length)
    (hm : m.length = product.length) :
    List.zipWith (· - ·)
        (List.zipWith (· + ·) (List.zipWith (· + ·) product e) m) product =
      List.zipWith (· + ·) m e := by
  apply List.ext_getElem
  · simp [he, hm]
  · intro t _ _
    simp only [List.getElem_zipWith]
    ring

/-- Encryption succeeds.  The mask has the shape of the key, and the phase is the message plus the
noise. -/
theorem encrypt_follows (hs : s.Total) {m : Polynomial} (hm : m.size = s.degree)
    (noise : Sampler γ Torus) :
    (encrypt s m noise).Follows (maskedNoise s.rank s.degree noise) fun c e =>
      c.Shaped s.rank s.degree ∧ phase s c = .ok ⟨List.zipWith (· + ·) m.coeffs e⟩ := by
  intro g
  let mask := (Polynomial.sampler s.degree Sampler.uniform).repeated s.rank g
  let e := noise.repeated s.degree mask.2
  have hrank : mask.1.length = s.rank := Sampler.length_repeated _ _ _
  have hmask : ∀ q ∈ mask.1, q.size = s.degree :=
    Sampler.forall_mem_repeated _ (Polynomial.size_sampler _) _ _
  have he : e.1.length = s.degree := Sampler.length_repeated _ _ _
  -- The body is made in two additions, of polynomials of the size of the key.
  rcases hs.product mask.1 hrank hmask with ⟨product, hproduct, hsize⟩
  let noisy : Polynomial := ⟨List.zipWith (· + ·) product.coeffs e.1⟩
  let body : Polynomial := ⟨List.zipWith (· + ·) noisy.coeffs m.coeffs⟩
  have hnoisy : noisy.size = s.degree := Polynomial.size_zipWith (q := ⟨e.1⟩) hsize he _
  have hadd : product.add ⟨e.1⟩ = .ok noisy := Polynomial.add_eq_ok hsize he hs.isPowerOfTwo
  have hadd' : noisy.add m = .ok body := Polynomial.add_eq_ok hnoisy hm hs.isPowerOfTwo
  have hshaped : GlweSample.Shaped s.rank s.degree ⟨mask.1, body⟩ :=
    ⟨hrank, hmask, Polynomial.size_zipWith hnoisy hm _⟩
  refine ⟨⟨mask.1, body⟩, ?_, hshaped, ?_⟩
  · simp only [mask] at hproduct
    simp [encrypt, drawPolynomial_eq_sample hs.isPowerOfTwo, Draw.mapM_sample, hproduct, hadd,
      hadd', Polynomial.sampler, maskedNoise, mask, e]
  · -- Decryption takes the product of the same mask away again.
    rw [phase_eq_ok_iff hs hshaped]
    have hcancel := zipWith_sub_cancel (he.trans hsize.symm) (hm.trans hsize.symm)
    exact ⟨product, hproduct, congrArg Polynomial.mk hcancel.symm⟩

end Glwe

end TorusFHE
