import TorusFHE.Proofs.Fourier.Product
import TorusFHE.Proofs.Glwe.Decryption

/-!
# Exact products of masks and keys

A product of masks with a key is exact if it is the sum of the products in `T[X] / (X ^ n + 1)`.
The transform computes such a product, over exact numbers, with every binary key that has fewer than
`2 ^ 32` coefficients: then no coefficient of the sum over the integers leaves the 64-bit range.

* `Glwe.MaskProduct.Exact`: exact products with a key;
* `Glwe.MaskProduct.Exact.total`: they are defined on masks of the right shape;
* `Glwe.abs_integerProduct_le`: how large the coefficients of a product over the integers are;
* `Glwe.exists_exact_maskProduct`: the products by the transform over exact numbers.
-/

namespace TorusFHE

namespace Glwe

/-- The coefficients of polynomials. -/
def entries (ps : List Polynomial) : List (Nat → Torus) :=
  (ps.map Polynomial.coeffs).map TorusVec.entry

/-- The sum of the products of the polynomials of a mask with those of a key, modulo
`X ^ n + 1`. -/
def exactProduct (s : GlweKey) (n : Nat) (mask : List Polynomial) : Polynomial :=
  ⟨(List.range n).map (negacyclicSum n (entries mask) (entries s.polys))⟩

@[simp] theorem size_exactProduct (s : GlweKey) (n : Nat) (mask : List Polynomial) :
    (exactProduct s n mask).size = n := by
  simp [exactProduct, Polynomial.size]

/-- The product is the one of the ring, on every mask of the right shape. -/
structure MaskProduct.Exact (product : MaskProduct) (s : GlweKey) : Prop where
  isPowerOfTwo : product.degree.isPowerOfTwo
  rank : s.polys.length = product.rank
  product_eq : ∀ mask : List Polynomial, mask.length = product.rank →
    (∀ q ∈ mask, q.size = product.degree) →
      product.product mask = .ok (exactProduct s product.degree mask)

theorem MaskProduct.Exact.total {product : MaskProduct} {s : GlweKey} (h : product.Exact s) :
    product.Total where
  isPowerOfTwo := h.isPowerOfTwo
  product := fun mask hrank hmask => ⟨_, h.product_eq mask hrank hmask, size_exactProduct _ _ _⟩

/-! ## Products by the transform -/

variable {κ : Type} [ExactScalar κ] {depth : Nat} {s : GlweKey}

/-- The coefficients of polynomials, read as centred numbers of units. -/
def units (ps : List Polynomial) : List (Nat → Int) :=
  (ps.map Polynomial.coeffs).map TorusVec.units

@[simp] theorem length_units (ps : List Polynomial) : (units ps).length = ps.length := by
  simp [units]

/-- The transforms of polynomials are their values. -/
theorem mapM_forward_eq_values {ps : List Polynomial}
    (hps : ∀ q ∈ ps, q.size = 2 ^ (depth + 1)) :
    ps.mapM (fun q => (Transform.ofDepth κ depth).forward q.coeffs) =
      .ok ((units ps).map (Transform.values κ depth)) := by
  rw [units, List.map_map, List.map_map]
  exact mapM_eq_ok fun q hq => Transform.forward_eq_values (hps q hq)

/-- The sum of the products of the polynomials of a mask with those of a key over the integers, whose
coefficients are centred numbers of units. -/
def integerProduct (s : GlweKey) (n : Nat) (mask : List Polynomial) : Nat → Int :=
  negacyclicSum n (units mask) (units s.polys)

/-- The product on the torus is the one over the integers, whole turns dropped. -/
theorem exactProduct_eq (s : GlweKey) (n : Nat) (mask : List Polynomial) :
    exactProduct s n mask = ⟨(List.range n).map fun i => (integerProduct s n mask i : Torus)⟩ := by
  simp only [exactProduct, integerProduct, units, entries, intCast_negacyclicSum_units]

/-- With a binary key, every coefficient of the key adds one unit of the mask at most. -/
theorem abs_integerProduct_le {n : Nat} {mask : List Polynomial}
    (hbinary : ∀ q ∈ s.polys, ∀ x ∈ q.coeffs, x = 0 ∨ x = 1)
    (hlen : mask.length = s.polys.length) (i : Nat) :
    |integerProduct s n mask i| ≤ s.polys.length * n * 2 ^ 31 := by
  have hmask : ∀ f ∈ units mask, ∀ i, |f i| ≤ 2 ^ 31 := by
    intro f hf i
    rcases List.mem_map.1 hf with ⟨v, -, rfl⟩
    exact v.abs_units_le i
  have hkey : ∀ f ∈ units s.polys, ∀ i, |f i| ≤ 1 := by
    intro f hf i
    rcases List.mem_map.1 hf with ⟨v, hv, rfl⟩
    rcases List.mem_map.1 hv with ⟨q, hq, rfl⟩
    exact TorusVec.abs_units_le_one (hbinary q hq) i
  have hpairs : (units mask).length = (units s.polys).length := by simp [hlen]
  calc
    |integerProduct s n mask i|
        ≤ (units mask).length * (n * (2 ^ 31 * 1)) := abs_negacyclicSum_le hmask hkey hpairs i
    _ = s.polys.length * n * 2 ^ 31 := by
      rw [length_units, hlen]
      ring

/-- The product over the integers stays in the 64-bit range. -/
theorem abs_integerProduct_lt {n : Nat} {mask : List Polynomial}
    (hbinary : ∀ q ∈ s.polys, ∀ x ∈ q.coeffs, x = 0 ∨ x = 1)
    (hlen : mask.length = s.polys.length) (hn : s.polys.length * n < 2 ^ 32) (i : Nat) :
    |integerProduct s n mask i| < 2 ^ 63 := by
  have hcast : (s.polys.length * n : Int) < 2 ^ 32 := by exact_mod_cast hn
  calc
    |integerProduct s n mask i|
        ≤ s.polys.length * n * 2 ^ 31 := abs_integerProduct_le hbinary hlen i
    _ < 2 ^ 32 * 2 ^ 31 := mul_lt_mul_of_pos_right hcast (by norm_num)
    _ = 2 ^ 63 := by norm_num

/-- Over exact numbers, the product with a binary key by the transform is exact. -/
theorem exists_exact_maskProduct (hs : ∀ q ∈ s.polys, q.size = 2 ^ (depth + 1))
    (hbinary : ∀ q ∈ s.polys, ∀ x ∈ q.coeffs, x = 0 ∨ x = 1)
    (hn : s.polys.length * 2 ^ (depth + 1) < 2 ^ 32) :
    ∃ product, maskProduct (Transform.ofDepth κ depth) s = .ok product ∧
      product.rank = s.polys.length ∧ product.degree = 2 ^ (depth + 1) ∧ product.Exact s := by
  let key := (units s.polys).map (Transform.values κ depth)
  have hrank : key.length = s.polys.length := by simp [key]
  refine ⟨.ofPoints (Transform.ofDepth κ depth) key, ?_, hrank, rfl, ⟨depth + 1, rfl⟩,
    hrank.symm, ?_⟩
  · rw [maskProduct_eq, mapM_forward_eq_values hs, ok_bind, pure_eq_ok]
  · intro mask hmask hsizes
    have hlen : mask.length = s.polys.length := hmask.trans hrank
    have hpairs : (units mask).length = (units s.polys).length := by simp [hlen]
    have hproduct : (Transform.ofDepth κ depth).innerProduct
        ((units mask).map (Transform.values κ depth)) key =
          .ok (exactProduct s (2 ^ (depth + 1)) mask) := by
      rw [exactProduct_eq]
      exact Transform.innerProduct_values hpairs fun i _ => abs_integerProduct_lt hbinary hlen hn i
    simp only [MaskProduct.ofPoints, mapM_forward_eq_values hsizes, ok_bind, hproduct]
    rfl

end Glwe

end TorusFHE
