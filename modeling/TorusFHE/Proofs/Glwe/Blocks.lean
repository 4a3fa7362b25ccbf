import TorusFHE.Proofs.Glwe.ExactProduct
import TorusFHE.Proofs.Glwe.InPlace

/-!
# Blocks of gadget encryptions

A constant that is added to mask polynomial `r` after the body was made is multiplied with key
polynomial `r` when the phase is taken, and comes out of it with a minus sign.  With an exact
product this gives the phases of all rows of a gadget encryption: block `r` stands for the negated
multiples of key polynomial `r`, the last block for the multiples themselves.

* `Glwe.phase_of_addConstant_mask`: a constant on a mask polynomial;
* `Ggsw.IsRow.phase_mask`: a row of one of the first blocks;
* `Ggsw.encrypt_blocks`: the phases of all rows.
-/

namespace TorusFHE

/-- A constant added to the first coefficient of a polynomial. -/
theorem TorusVec.entry_modify_zero_add {v : TorusVec} (hv : 0 < v.length) (c : Torus) :
    TorusVec.entry (v.modify 0 (· + c)) = fun i => (if i = 0 then c else 0) + v.entry i := by
  funext i
  by_cases hi : i < v.length
  · exact getD_modify_zero_add hi c
  · have hpos : i ≠ 0 := by omega
    simp [entry, List.getD_eq_getElem?_getD, Nat.le_of_not_lt hi, hpos]

/-- The coefficients of key polynomial `r`. -/
def GlweKey.coeff (s : GlweKey) (r t : Nat) : Torus :=
  (s.polys.getD r ⟨[]⟩).coeffs.getD t 0

namespace Glwe

variable {product : MaskProduct} {s : GlweKey}

theorem getD_exactProduct (s : GlweKey) {n t : Nat} (ht : t < n) (mask : List Polynomial) :
    (exactProduct s n mask).coeffs.getD t 0 = negacyclicSum n (entries mask) (entries s.polys) t := by
  simp [exactProduct, ht]

/-- A constant on mask polynomial `r` adds that multiple of key polynomial `r` to the product. -/
theorem getD_exactProduct_set {n r t : Nat} (ht : t < n) {mask : List Polynomial} {q : Polynomial}
    (hq : mask[r]? = some q) (hsize : q.size = n) (hr : r < s.polys.length) (c : Torus) :
    (exactProduct s n (mask.set r ⟨q.coeffs.modify 0 (· + c)⟩)).coeffs.getD t 0 =
      c * s.coeff r t + (exactProduct s n mask).coeffs.getD t 0 := by
  have hpos : 0 < n := (Nat.zero_le t).trans_lt ht
  have hmask : (entries mask)[r]? = some q.coeffs.entry := by simp [entries, hq]
  have hkey : (entries s.polys)[r]? = some (s.coeff r) := by
    rw [entries, List.getElem?_map, List.getElem?_map, getElem?_eq_some_getD hr ⟨[]⟩]
    rfl
  have hset : entries (mask.set r ⟨q.coeffs.modify 0 (· + c)⟩) =
      (entries mask).set r fun i => (if i = 0 then c else 0) + q.coeffs.entry i := by
    simp only [entries, List.map_set, TorusVec.entry_modify_zero_add (hsize ▸ hpos)]
  rw [getD_exactProduct s ht, getD_exactProduct s ht, hset,
    negacyclicSum_set_add_constant hpos hmask hkey]

/-- A constant on mask polynomial `r` takes that multiple of key polynomial `r` off the phase. -/
theorem phase_of_addConstant_mask (hs : product.Exact s) {z : GlweSample}
    (hz : z.Shaped product.rank product.degree) {e : Polynomial} (he : phase product z = .ok e)
    {r : Nat} (hr : r < product.rank) {c : Torus} {row : GlweSample}
    (hrow : z.addConstant r c = .ok row) :
    ∃ x, phase product row = .ok x ∧ x.size = product.degree ∧
      ∀ t < product.degree, x.coeffs.getD t 0 = -(c * s.coeff r t) + e.coeffs.getD t 0 := by
  have hpos : 0 < product.degree := Nat.pos_of_isPowerOfTwo hs.isPowerOfTwo
  obtain ⟨q, hq⟩ : ∃ q, z.mask[r]? = some q := ⟨_, List.getElem?_eq_getElem (hz.rank ▸ hr)⟩
  have hsize : q.size = product.degree := hz.mask q (List.mem_of_getElem? hq)
  rcases GlweSample.exists_addConstant hpos hz r c with ⟨row', hrow', hshaped⟩
  cases hrow'.symm.trans hrow
  cases (GlweSample.addConstant_of_getElem? hq (hsize ▸ hpos) c).symm.trans hrow
  -- The body is the same, so that the phases differ as the products do.
  have hbefore := hs.product_eq z.mask hz.rank hz.mask
  have hafter := hs.product_eq _ hshaped.rank hshaped.mask
  rcases (phase_eq_ok_iff hs.total hz).1 he with ⟨p, hp, rfl⟩
  cases hbefore.symm.trans hp
  refine ⟨_, (phase_eq_ok_iff hs.total hshaped).2 ⟨_, hafter, rfl⟩, ?_, ?_⟩
  · exact Polynomial.size_zipWith hz.body (size_exactProduct _ _ _) _
  · intro t ht
    have hbody : t < z.body.coeffs.length := ht.trans_eq hz.body.symm
    have hproduct : ∀ mask, t < (exactProduct s product.degree mask).coeffs.length :=
      fun mask => ht.trans_eq (size_exactProduct s product.degree mask).symm
    rw [TorusVec.getD_zipWith hbody (hproduct _), TorusVec.getD_zipWith hbody (hproduct _),
      getD_exactProduct_set ht hq hsize (hs.rank ▸ hr)]
    ring

end Glwe

namespace Ggsw

variable {product : Glwe.MaskProduct} {s : GlweKey}

/-- A row of block `r` stands for the negated multiple of key polynomial `r`. -/
theorem IsRow.phase_mask (hs : product.Exact s) {r : Nat} (hr : r < product.rank) {c : Torus}
    {row : GlweSample} {e : TorusVec} (h : IsRow product (r, c) row e) :
    ∃ x, Glwe.phase product row = .ok x ∧ x.size = product.degree ∧
      ∀ t < product.degree, x.coeffs.getD t 0 = -(c * s.coeff r t) + e.getD t 0 := by
  rcases h.zero with ⟨z, hz, hphase, hrow⟩
  exact Glwe.phase_of_addConstant_mask hs hz hphase hr hrow

variable {γ : Type} [Generator γ]

/-- Gadget encryption under an exact product makes a row for each block and level.  For the weight
`w` of the level and the noise `e` of the row, the phase of the row is `-(m * w) * S + e` in the
block of key polynomial `S`, and `m * w + e` in the last block.  The rows are the same if all are
drawn before the constants are added to them in place. -/
theorem encrypt_blocks (g : Gadget) (hs : product.Exact s) (m : Torus) (noise : Sampler γ Torus)
    (start : γ) :
    let k := product.rank
    let n := product.degree
    let es := noises k n g.levels noise start
    ∃ c, encrypt g product m noise start = .ok (c, es.2) ∧
      encryptInPlace product noise g m start = .ok (c, es.2) ∧
      c.rows.length = (k + 1) * g.levels ∧
      ∀ j, 1 ≤ j → j ≤ g.levels →
        let weight : Torus := 2 ^ (32 - j * g.logBase)
        (∀ r < k, ∃ row x, c.rows[r * g.levels + (j - 1)]? = some row ∧
          Glwe.phase product row = .ok x ∧ x.size = n ∧
          (es.1.getD (r * g.levels + (j - 1)) []).length = n ∧
          ∀ t < n, x.coeffs.getD t 0 =
            -(m * weight * s.coeff r t) + (es.1.getD (r * g.levels + (j - 1)) []).getD t 0) ∧
        ∃ row x, c.rows[k * g.levels + (j - 1)]? = some row ∧
          Glwe.phase product row = .ok x ∧ x.size = n ∧
          (es.1.getD (k * g.levels + (j - 1)) []).length = n ∧
          ∀ t < n, x.coeffs.getD t 0 =
            (if t = 0 then m * weight else 0)
              + (es.1.getD (k * g.levels + (j - 1)) []).getD t 0 := by
  intro k n es
  have hlength : es.1.length = (k + 1) * g.levels := Sampler.length_repeated _ _ _
  have hsizes : ∀ e ∈ es.1, e.length = n :=
    Sampler.forall_mem_repeated _ (Glwe.length_maskedNoise _ _ _) _ _
  rcases encrypt_follows g hs.total m noise start with ⟨c, hrun, hrows⟩
  refine ⟨c, hrun, (congrFun (encryptInPlace_eq g m hs.total noise) start).trans hrun, ?_, ?_⟩
  · rw [hrows.length_eq, List.length_zip, length_targets, hlength, Nat.min_self]
  · intro j hj hjle weight
    constructor
    · intro r hr
      rcases exists_isRow g hrows hlength hr.le hj hjle with ⟨row, hrow, hnoise, hisRow⟩
      rcases hisRow.phase_mask hs hr with ⟨x, hphase, hsize, hcoeffs⟩
      exact ⟨row, x, hrow, hphase, hsize, hsizes _ hnoise, hcoeffs⟩
    · rcases exists_isRow g hrows hlength (le_refl k) hj hjle with ⟨row, hrow, hnoise, hisRow⟩
      have he := hsizes _ hnoise
      refine ⟨row, _, hrow, hisRow.phase hs.total, (List.length_modify _ _ _).trans he, he, ?_⟩
      intro t ht
      exact TorusVec.getD_modify_zero_add (ht.trans_eq he.symm) _

/-- A key of two polynomials and a gadget of two levels: the second row of the second block and the
first row of the last one, with the product by the transform over the complex numbers. -/
theorem encrypt_blocks_two_polynomials :
    let g : Gadget := ⟨4, 2, by decide, by decide, by decide⟩
    let s : GlweKey := ⟨[⟨[1, 0]⟩, ⟨[1, 1]⟩]⟩
    let start : CyclicWords := ⟨#[0x80000003, 5, 0xc0000001, 7, 9], 0⟩
    ∃ product c final, Glwe.maskProduct (Transform.ofDepth ℂ 0) s = .ok product ∧
      product.Exact s ∧ encrypt g product ⟨3⟩ Sampler.binary start = .ok (c, final) ∧
      encryptInPlace product Sampler.binary g ⟨3⟩ start = .ok (c, final) ∧
      c.rows.length = 6 ∧
      (∃ row x, c.rows[3]? = some row ∧ Glwe.phase product row = .ok x ∧
        x.coeffs.getD 0 0 = ⟨0xfd000001⟩ ∧ x.coeffs.getD 1 0 = ⟨0xfd000000⟩) ∧
      ∃ row x, c.rows[4]? = some row ∧ Glwe.phase product row = .ok x ∧
        x.coeffs.getD 0 0 = ⟨0x30000000⟩ ∧ x.coeffs.getD 1 0 = ⟨0⟩ := by
  intro g s start
  rcases @Glwe.exists_exact_maskProduct ℂ _ 0 s (by decide) (by decide)
    (by decide) with ⟨product, hproduct, hrank, hdegree, hexact⟩
  rcases encrypt_blocks g hexact ⟨3⟩ Sampler.binary start with ⟨c, hrun, hinPlace, hlength, hrows⟩
  rw [hrank] at hlength
  refine ⟨product, c, _, hproduct, hexact, hrun, hinPlace, hlength, ?_, ?_⟩
  · rcases (hrows 2 (by decide) (by decide)).1 1 (hrank ▸ by decide) with
      ⟨row, x, hrow, hphase, -, -, hcoeffs⟩
    rw [hrank, hdegree] at hcoeffs
    refine ⟨row, x, hrow, hphase, ?_, ?_⟩
    · rw [hcoeffs 0 (by decide)]
      decide +kernel
    · rw [hcoeffs 1 (by decide)]
      decide +kernel
  · rcases (hrows 1 (by decide) (by decide)).2 with ⟨row, x, hrow, hphase, -, -, hcoeffs⟩
    rw [hrank] at hrow
    rw [hrank, hdegree] at hcoeffs
    refine ⟨row, x, hrow, hphase, ?_, ?_⟩
    · rw [hcoeffs 0 (by decide)]
      decide +kernel
    · rw [hcoeffs 1 (by decide)]
      decide +kernel

end Ggsw

end TorusFHE
