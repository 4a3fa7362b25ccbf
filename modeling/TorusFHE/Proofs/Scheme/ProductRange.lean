import TorusFHE.Proofs.Glwe.ExactProduct
import TorusFHE.Proofs.Scheme.Parameters
import TorusFHE.Scheme.Preset

/-!
# The range of products of masks and keys

The transform is documented to lose nothing with machine numbers as long as the coefficients of a
product over the integers are below `2 ^ 52`; whether it does is a matter of its rounding and not
claimed here.  Encryption and decryption add up the products of all polynomials of a mask before they
come back from the transform, so that the sum, not only the single product, has to stay in this range.
The limits on rank and size alone leave it up to `2 ^ 55`.

* `Glwe.integerProduct_replicate`: operands that make the largest coefficient;
* `Glwe.abs_integerProduct_lt_iff`: the ranks and sizes at which every product stays in range;
* `Glwe.product_range`: what holds of all valid parameters.
-/

namespace TorusFHE

/-! ## Operands -/

/-- Binary keys of `k` polynomials of `n` coefficients. -/
structure GlweKey.IsBinary (k n : Nat) (s : GlweKey) : Prop where
  rank : s.polys.length = k
  degree : ∀ q ∈ s.polys, q.size = n
  binary : ∀ q ∈ s.polys, ∀ x ∈ q.coeffs, x = 0 ∨ x = 1

/-- Masks of `k` polynomials of `n` coefficients. -/
structure Glwe.IsMask (k n : Nat) (mask : List Polynomial) : Prop where
  rank : mask.length = k
  degree : ∀ q ∈ mask, q.size = n

/-- Polynomials all of whose coefficients are the same. -/
def Polynomial.filled (n : Nat) (x : Torus) : Polynomial :=
  ⟨List.replicate n x⟩

theorem Polynomial.units_filled {n i : Nat} (hi : i < n) (x : Torus) :
    (filled n x).coeffs.units i = x.centered := by
  simp [filled, TorusVec.units, TorusVec.entry, List.getD_eq_getElem?_getD, hi]

namespace Glwe

variable {k n : Nat}

theorem isBinary_filled_one (k n : Nat) :
    GlweKey.IsBinary k n ⟨List.replicate k (.filled n 1)⟩ where
  rank := List.length_replicate
  degree := fun _ hq => (List.eq_of_mem_replicate hq).symm ▸ List.length_replicate
  binary := by
    intro q hq x hx
    rw [List.eq_of_mem_replicate hq] at hx
    exact .inr (List.eq_of_mem_replicate hx)

theorem isMask_filled (k n : Nat) (x : Torus) : IsMask k n (List.replicate k (.filled n x)) where
  rank := List.length_replicate
  degree := fun _ hq => (List.eq_of_mem_replicate hq).symm ▸ List.length_replicate

/-! ## The largest coefficient -/

/-- In the last coefficient of a product no term changes its sign, so that equal terms add up. -/
theorem integerProduct_replicate (k n : Nat) (x y : Torus) :
    integerProduct ⟨List.replicate k (.filled (n + 1) y)⟩ (n + 1)
        (List.replicate k (.filled (n + 1) x)) n =
      k * ((n + 1 : Nat) * (x.centered * y.centered)) := by
  have hcoeff : negacyclicCoeff (n + 1) (Polynomial.filled (n + 1) x).coeffs.units
      (Polynomial.filled (n + 1) y).coeffs.units n = (n + 1 : Nat) * (x.centered * y.centered) := by
    rw [negacyclicCoeff_last, Finset.sum_congr rfl fun i hi => ?_, Finset.sum_const,
      Finset.card_range, nsmul_eq_mul]
    rw [Polynomial.units_filled (Finset.mem_range.1 hi), Polynomial.units_filled (by omega)]
  simp [integerProduct, negacyclicSum, units, hcoeff]

/-- The mask of half turns and the key of ones reach the bound. -/
theorem abs_integerProduct_halfTurns (k : Nat) (hn : 0 < n) :
    |integerProduct ⟨List.replicate k (.filled n 1)⟩ n
        (List.replicate k (.filled n ⟨0x80000000⟩)) (n - 1)| = k * n * 2 ^ 31 := by
  have hhalf : (⟨0x80000000⟩ : Torus).centered * (1 : Torus).centered = -2 ^ 31 := by decide
  have hnonneg : (0 : Int) ≤ k * n * 2 ^ 31 :=
    mul_nonneg (mul_nonneg (Int.natCast_nonneg k) (Int.natCast_nonneg n)) (by norm_num)
  obtain ⟨m, rfl⟩ : ∃ m, n = m + 1 := ⟨n - 1, by omega⟩
  rw [Nat.add_sub_cancel, integerProduct_replicate, hhalf, mul_neg, mul_neg, abs_neg, ← mul_assoc,
    abs_of_nonneg hnonneg]

/-- No operands exceed it. -/
theorem abs_integerProduct_le_of_isBinary {s : GlweKey} {mask : List Polynomial}
    (hs : s.IsBinary k n) (hmask : IsMask k n mask) (i : Nat) :
    |integerProduct s n mask i| ≤ k * n * 2 ^ 31 := by
  rw [← hs.rank]
  exact abs_integerProduct_le hs.binary (hmask.rank.trans hs.rank.symm) i

/-- All products with binary keys are below `2 ^ 52` exactly if rank and size
multiply to less than `2 ^ 21`. -/
theorem abs_integerProduct_lt_iff (hn : 0 < n) :
    (∀ s mask, GlweKey.IsBinary k n s → IsMask k n mask →
      ∀ i < n, |integerProduct s n mask i| < 2 ^ 52) ↔ k * n < 2 ^ 21 := by
  have hscale : (k * n : Int) * 2 ^ 31 < 2 ^ 52 ↔ k * n < 2 ^ 21 := by
    have hpow : (2 : Int) ^ 52 = 2 ^ 21 * 2 ^ 31 := by norm_num
    rw [hpow, mul_lt_mul_iff_left₀ (by norm_num)]
    exact_mod_cast Iff.rfl
  rw [← hscale]
  constructor
  · intro h
    rw [← abs_integerProduct_halfTurns k hn]
    exact h _ _ (isBinary_filled_one k n) (isMask_filled k n _) _ (by omega)
  · intro h s mask hs hmask i _
    exact (abs_integerProduct_le_of_isBinary hs hmask i).trans_lt h

/-! ## Encryption and decryption -/

section Samples

variable {product : MaskProduct} {s : GlweKey}

/-- Decryption takes the product over the integers, whole turns dropped, from the body. -/
theorem exists_phase_getD (hs : product.Exact s) {c : GlweSample}
    (hc : c.Shaped product.rank product.degree) :
    ∃ x, phase product c = .ok x ∧ x.size = product.degree ∧
      ∀ i < product.degree, x.coeffs.getD i 0 =
        c.body.coeffs.getD i 0 - (integerProduct s product.degree c.mask i : Torus) := by
  have hproduct := hs.product_eq c.mask hc.rank hc.mask
  have hsize := size_exactProduct s product.degree c.mask
  refine ⟨_, (phase_eq_ok_iff hs.total hc).2 ⟨_, hproduct, rfl⟩,
    Polynomial.size_zipWith hc.body hsize _, fun i hi => ?_⟩
  rw [TorusVec.getD_zipWith (hi.trans_eq hc.body.symm) (hi.trans_eq hsize.symm), exactProduct_eq]
  simp [hi]

/-- Encryption adds the product over the integers, whole turns dropped, to message and noise. -/
theorem exists_encrypt_getD {γ : Type} [Generator γ] (hs : product.Exact s) {m : Polynomial}
    (hm : m.size = product.degree) (noise : Sampler γ Torus) (g : γ) :
    let e := maskedNoise product.rank product.degree noise g
    ∃ c, encrypt product m noise g = .ok (c, e.2) ∧ c.Shaped product.rank product.degree ∧
      ∀ i < product.degree, c.body.coeffs.getD i 0 =
        (integerProduct s product.degree c.mask i : Torus) + m.coeffs.getD i 0 + e.1.getD i 0 := by
  intro e
  rcases encrypt_follows hs.total hm noise g with ⟨c, hrun, hshaped, hphase⟩
  rcases exists_phase_getD hs hshaped with ⟨x, hx, -, hcoeffs⟩
  cases hphase.symm.trans hx
  refine ⟨c, hrun, hshaped, fun i hi => ?_⟩
  have hnoise : e.1.length = product.degree := length_maskedNoise _ _ _ _
  have hbody := hcoeffs i hi
  rw [TorusVec.getD_zipWith (hi.trans_eq hm.symm) (hi.trans_eq hnoise.symm), eq_sub_iff_add_eq]
    at hbody
  rw [← hbody, add_comm, add_assoc]

end Samples

/-! ## Valid parameters -/

section Valid

variable {p : Parameters} {s : GlweKey} {mask : List Polynomial}

/-- No size that is valid takes a single product out of range. -/
theorem abs_negacyclicCoeff_lt (hp : p.Valid) (hs : s.IsBinary p.k p.degree) {r : Polynomial}
    (hr : r ∈ s.polys) (q : Polynomial) (i : Nat) :
    |negacyclicCoeff p.degree q.coeffs.units r.coeffs.units i| < 2 ^ 52 := by
  have hdegree : (p.degree : Int) ≤ 2 ^ 16 := by exact_mod_cast hp.polynomialSize.2
  calc
    |negacyclicCoeff p.degree q.coeffs.units r.coeffs.units i|
        ≤ p.degree * (2 ^ 31 * 1) :=
      abs_negacyclicCoeff_le q.coeffs.abs_units_le (TorusVec.abs_units_le_one (hs.binary r hr)) i
    _ ≤ 2 ^ 16 * (2 ^ 31 * 1) := mul_le_mul_of_nonneg_right hdegree (by norm_num)
    _ < 2 ^ 52 := by norm_num

/-- The sum of the products is bounded by rank and size, and these are bounded by their limits. -/
theorem abs_integerProduct_le_limit (hp : p.Valid) (hs : s.IsBinary p.k p.degree)
    (hmask : IsMask p.k p.degree mask) (i : Nat) :
    |integerProduct s p.degree mask i| ≤ p.k * p.degree * 2 ^ 31 ∧
      |integerProduct s p.degree mask i| ≤ 2 ^ 55 := by
  have hle := abs_integerProduct_le_of_isBinary hs hmask i
  have hsize : (p.k * p.degree : Int) ≤ 2 ^ 8 * 2 ^ 16 := by
    exact_mod_cast Nat.mul_le_mul hp.glweDimension.2 hp.polynomialSize.2
  refine ⟨hle, ?_⟩
  calc
    |integerProduct s p.degree mask i| ≤ p.k * p.degree * 2 ^ 31 := hle
    _ ≤ 2 ^ 8 * 2 ^ 16 * 2 ^ 31 := mul_le_mul_of_nonneg_right hsize (by norm_num)
    _ = 2 ^ 55 := by norm_num

/-- Over exact numbers, the product of masks and a binary key of valid parameters is exact. -/
theorem exists_exact_of_valid (κ : Type) [ExactScalar κ] (hp : p.Valid) :
    ∃ t : Transform κ, Transform.ofSize p.degree = .ok t ∧
      ∀ s, GlweKey.IsBinary p.k p.degree s → ∃ product, maskProduct t s = .ok product ∧
        product.rank = p.k ∧ product.degree = p.degree ∧ product.Exact s := by
  rcases Transform.exists_ofSize (κ := κ) hp.polynomialSize.1 hp.isPowerOfTwo with
    ⟨depth, hdegree, ht⟩
  refine ⟨_, ht, fun s hs => ?_⟩
  have hbits : s.polys.length * 2 ^ (depth + 1) < 2 ^ 32 := by
    rw [hs.rank, ← hdegree]
    exact (Nat.mul_le_mul hp.glweDimension.2 hp.polynomialSize.2).trans_lt (by decide)
  rcases exists_exact_maskProduct (κ := κ) (fun q hq => (hs.degree q hq).trans hdegree) hs.binary
    hbits with ⟨product, hproduct, hrank, hsize, hexact⟩
  exact ⟨product, hproduct, hrank.trans hs.rank, hsize.trans hdegree.symm, hexact⟩

end Valid

/-- For valid parameters of rank `k` and size `n`, every single product with a binary key stays in
the range that is documented as exact.  The sum of the products of a mask reaches up to `k * n * 2 ^ 31`, at
most `2 ^ 55`, and stays in that range for all keys and masks exactly if `k * n` is below `2 ^ 21`.
Over exact numbers, encryption and decryption by the transform recover this sum, whole turns
dropped. -/
theorem product_range {κ γ : Type} [ExactScalar κ] [Generator γ] {p : Parameters}
    (hp : p.validate = .ok ()) :
    (∀ s mask, GlweKey.IsBinary p.k p.degree s → IsMask p.k p.degree mask →
      (∀ q ∈ mask, ∀ r ∈ s.polys, ∀ i,
        |negacyclicCoeff p.degree q.coeffs.units r.coeffs.units i| < 2 ^ 52) ∧
      ∀ i, |integerProduct s p.degree mask i| ≤ p.k * p.degree * 2 ^ 31 ∧
        |integerProduct s p.degree mask i| ≤ 2 ^ 55) ∧
    ((∀ s mask, GlweKey.IsBinary p.k p.degree s → IsMask p.k p.degree mask →
      ∀ i < p.degree, |integerProduct s p.degree mask i| < 2 ^ 52) ↔ p.k * p.degree < 2 ^ 21) ∧
    ∃ t : Transform κ, Transform.ofSize p.degree = .ok t ∧
      ∀ s, GlweKey.IsBinary p.k p.degree s → ∃ product, maskProduct t s = .ok product ∧
        product.rank = p.k ∧ product.degree = p.degree ∧
        (∀ c : GlweSample, c.Shaped p.k p.degree → ∃ x, phase product c = .ok x ∧
          x.size = p.degree ∧ ∀ i < p.degree, x.coeffs.getD i 0 =
            c.body.coeffs.getD i 0 - (integerProduct s p.degree c.mask i : Torus)) ∧
        ∀ (m : Polynomial) (noise : Sampler γ Torus) (g : γ), m.size = p.degree →
          let e := maskedNoise p.k p.degree noise g
          ∃ c, encrypt product m noise g = .ok (c, e.2) ∧ c.Shaped p.k p.degree ∧
            ∀ i < p.degree, c.body.coeffs.getD i 0 =
              (integerProduct s p.degree c.mask i : Torus) + m.coeffs.getD i 0
                + e.1.getD i 0 := by
  have hvalid : p.Valid := Parameters.validate_eq_ok_iff.1 hp
  have hpos : 0 < p.degree := Nat.pos_of_isPowerOfTwo hvalid.isPowerOfTwo
  rcases exists_exact_of_valid κ hvalid with ⟨t, ht, hproducts⟩
  refine ⟨fun s mask hs hmask => ⟨?_, ?_⟩, abs_integerProduct_lt_iff hpos, t, ht, fun s hs => ?_⟩
  · exact fun q _ r hr => abs_negacyclicCoeff_lt hvalid hs hr q
  · exact abs_integerProduct_le_limit hvalid hs hmask
  · rcases hproducts s hs with ⟨product, hproduct, hrank, hdegree, hexact⟩
    refine ⟨product, hproduct, hrank, hdegree, ?_, ?_⟩
    · rw [← hrank, ← hdegree]
      exact fun c hc => exists_phase_getD hexact hc
    · rw [← hrank, ← hdegree]
      exact fun m noise g hm => exists_encrypt_getD hexact hm noise g

/-- With predefined parameters, which are valid, every product with a binary key stays in range. -/
theorem product_range_presets :
    (∀ preset : Preset, preset.parameters.validate = .ok ()) ∧
      ∀ preset : Preset, let p := preset.parameters
        ∀ s mask, GlweKey.IsBinary p.k p.degree s → IsMask p.k p.degree mask →
          ∀ i < p.degree, |integerProduct s p.degree mask i| < 2 ^ 52 := by
  have hvalid : ∀ preset : Preset, preset.parameters.validate = .ok () := by
    intro preset
    cases preset <;> decide +kernel
  refine ⟨hvalid, fun preset => (product_range (κ := ℂ) (γ := CyclicWords) (hvalid preset)).2.1.2 ?_⟩
  cases preset <;> decide

/-- A rank and a size within their limits, with which a product leaves the range. -/
theorem integerProduct_out_of_range :
    let p : Parameters :=
      { Preset.standard.parameters with glweDimension := 256, polynomialSize := 8192 }
    let s : GlweKey := ⟨List.replicate 256 (.filled 8192 1)⟩
    let mask := List.replicate 256 (Polynomial.filled 8192 ⟨0x80000000⟩)
    p.validate = .ok () ∧ s.IsBinary p.k p.degree ∧ IsMask p.k p.degree mask ∧
      8191 < p.degree ∧ 2 ^ 52 ≤ |integerProduct s p.degree mask 8191| := by
  intro p s mask
  have hlargest : |integerProduct s 8192 mask 8191| = (256 : Nat) * (8192 : Nat) * 2 ^ 31 :=
    abs_integerProduct_halfTurns 256 (by decide)
  refine ⟨by decide +kernel, isBinary_filled_one 256 8192, isMask_filled 256 8192 _, by decide, ?_⟩
  change 2 ^ 52 ≤ |integerProduct s 8192 mask 8191|
  rw [hlargest]
  norm_num

end Glwe

end TorusFHE
