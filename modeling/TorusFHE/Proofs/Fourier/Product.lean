import TorusFHE.Proofs.Fourier.Scalar
import TorusFHE.Proofs.Fourier.Transform
import TorusFHE.Proofs.Torus.Negacyclic
import TorusFHE.Torus.Polynomial

/-!
# Products by the transform

With exact numbers the transform of a polynomial is the list of its values at the odd powers of the
root `e ^ (iπ / n)`, in bit-reversed order.  At these points `x ^ n` is minus one, so that values
multiply as polynomials do modulo `X ^ n + 1`; and the transform is undone by the backward one, as
long as the coefficients are in the 64-bit range.

* `Transform.forward_eq_values`: the forward transform is evaluation;
* `Transform.backward_values`: the backward transform reads the coefficients back;
* `Transform.exact_products`: products and inner products are those of the quotient ring.
-/

namespace TorusFHE

namespace Transform

open ExactScalar (ofParts_eq root_add root_mul conj_root_mul toParts_divNat root_mul_left root_self
  root_halfTurns_add)

variable {κ : Type} [ExactScalar κ]

/-! ## Points of evaluation -/

/-- The point that the transform evaluates at in position `k`. -/
def evaluationPoint (κ : Type) [ExactScalar κ] (depth k : Nat) : κ :=
  FourierScalar.root (4 * reverseIndex depth k + 1) (2 ^ (depth + 1))

/-- The value at `x` of the polynomial with these `n` integer coefficients. -/
def valueAt (n : Nat) (f : Nat → Int) (x : κ) : κ :=
  ∑ j ∈ Finset.range n, (f j : κ) * x ^ j

/-- The values of a polynomial at all points of evaluation. -/
def values (κ : Type) [ExactScalar κ] (depth : Nat) (f : Nat → Int) : List κ :=
  (List.range (2 ^ depth)).map fun k => valueAt (2 ^ (depth + 1)) f (evaluationPoint κ depth k)

@[simp] theorem length_values (depth : Nat) (f : Nat → Int) :
    (values κ depth f).length = 2 ^ depth := by
  simp [values]

/-- At every point, the power of half the size is the imaginary unit. -/
theorem evaluationPoint_pow_half (depth k : Nat) :
    evaluationPoint κ depth k ^ 2 ^ depth = FourierScalar.root 1 2 := by
  have hturns : 4 * reverseIndex depth k + 1 = 2 * reverseIndex depth k * 2 + 1 := by ring
  calc
    evaluationPoint κ depth k ^ 2 ^ depth
        = FourierScalar.root ((4 * reverseIndex depth k + 1) * 2 ^ depth) (2 * 2 ^ depth) := by
      rw [evaluationPoint, ← root_mul_left, Nat.mul_comm (2 ^ depth), pow_succ, mul_comm 2]
    _ = FourierScalar.root (2 * reverseIndex depth k * 2 + 1) 2 := by
      rw [root_mul _ _ _ (Nat.two_pow_pos depth), hturns]
    _ = FourierScalar.root 1 2 := by
      rw [root_halfTurns_add Nat.two_pos, pow_mul, neg_one_sq, one_pow, one_mul]

/-- At every point, the power of the size is minus one. -/
theorem evaluationPoint_pow_size (depth k : Nat) :
    evaluationPoint κ depth k ^ 2 ^ (depth + 1) = -1 := by
  rw [pow_succ 2 depth, pow_mul, evaluationPoint_pow_half, ← root_mul_left,
    root_self Nat.two_pos]

/-! ## Twiddle factors -/

theorem getD_reverseBits_range {depth k : Nat} (hk : k < 2 ^ depth) (f : Nat → κ) :
    (reverseBits depth ((List.range (2 ^ depth)).map f)).toArray.getD k 0 =
      f (reverseIndex depth k) := by
  have hlen : ((List.range (2 ^ depth)).map f).length = 2 ^ depth := by simp
  have hreverse : reverseIndex depth k < 2 ^ depth := reverseIndex_lt depth k
  rw [Array.getD_eq_getD_getElem?, List.getElem?_toArray, getElem?_reverseBits hlen hk]
  simp [hreverse]

theorem twiddleAt_eq {depth k : Nat} (hk : k < 2 ^ depth) :
    twiddleAt κ depth k = FourierScalar.root (reverseIndex depth k) (2 ^ depth) :=
  getD_reverseBits_range hk _

theorem untwiddleAt_eq {depth k : Nat} (hk : k < 2 ^ depth) :
    untwiddleAt κ depth k =
      FourierScalar.conj (FourierScalar.root (reverseIndex depth k) (2 ^ depth)) := by
  simp only [untwiddleAt, ofDepth, List.map_map]
  exact getD_reverseBits_range hk _

/-- In bit-reversed order, every root is a square root of the one of the block above it. -/
theorem isTwiddle_twiddleAt (depth : Nat) :
    Butterfly.IsTwiddle (twiddleAt κ depth) (2 ^ depth) := by
  intro k hk
  have habove : k / 2 < 2 ^ depth := (Nat.div_le_self k 2).trans_lt hk
  rw [twiddleAt_eq hk, twiddleAt_eq habove, ← root_mul_left, two_mul_reverseIndex hk,
    root_halfTurns_add (Nat.two_pow_pos depth), ← neg_one_pow_eq_pow_mod_two]

/-- A point of evaluation is the twist times the square of a twiddle factor. -/
theorem root_one_mul_twiddleAt_sq {depth k : Nat} (hk : k < 2 ^ depth) :
    FourierScalar.root 1 (2 ^ (depth + 1)) * twiddleAt κ depth k ^ 2 =
      evaluationPoint κ depth k := by
  have hangle : FourierScalar.root (2 * reverseIndex depth k) (2 ^ depth) =
      (FourierScalar.root (4 * reverseIndex depth k) (2 ^ (depth + 1)) : κ) := by
    have hdouble : 4 * reverseIndex depth k = 2 * reverseIndex depth k * 2 := by ring
    rw [hdouble, pow_succ, root_mul _ _ _ Nat.two_pos]
  rw [twiddleAt_eq hk, ← root_mul_left, hangle, ← root_add, Nat.add_comm 1, evaluationPoint]

/-! ## The forward transform -/

/-- The coefficients of an integer polynomial, folded and twisted. -/
def folded (κ : Type) [ExactScalar κ] (depth : Nat) (f : Nat → Int) : List κ :=
  (List.range (2 ^ depth)).map fun j =>
    FourierScalar.ofParts (f j) (f (2 ^ depth + j)) * FourierScalar.root j (2 ^ (depth + 1))

theorem length_folded (depth : Nat) (f : Nat → Int) :
    (folded κ depth f).length = 2 ^ depth := by
  simp [folded]

theorem getD_folded {depth j : Nat} (hj : j < 2 ^ depth) (f : Nat → Int) :
    (folded κ depth f).getD j 0 =
      ((f j : κ) + FourierScalar.root 1 2 * f (2 ^ depth + j))
        * FourierScalar.root 1 (2 ^ (depth + 1)) ^ j := by
  have hentry : (folded κ depth f).getD j 0 =
      FourierScalar.ofParts (f j) (f (2 ^ depth + j))
        * FourierScalar.root (j * 1) (2 ^ (depth + 1)) := by
    simp [folded, List.getD_eq_getElem?_getD, hj]
  rw [hentry, ofParts_eq, root_mul_left]
  ring

/-- The forward pass over folded coefficients evaluates the polynomial. -/
theorem forward_folded (depth : Nat) (f : Nat → Int) :
    Butterfly.forward (twiddleAt κ depth) depth 0 (folded κ depth f) = values κ depth f := by
  have hlen : (folded κ depth f).length = 2 ^ depth := length_folded depth f
  have hout := Butterfly.length_forward (twiddleAt κ depth) 0 hlen
  apply List.ext_getElem
  · rw [hout, length_values]
  · intro k hleft hright
    have hk : k < 2 ^ depth := hout ▸ hleft
    have hblock : (0 + 1) * 2 ^ depth ≤ 2 ^ depth := by rw [zero_add, one_mul]
    have hvalue := Butterfly.getD_forward (isTwiddle_twiddleAt (κ := κ) depth) hlen hblock hk
    rw [zero_mul, zero_add] at hvalue
    calc
      (Butterfly.forward (twiddleAt κ depth) depth 0 (folded κ depth f))[k]
          = ∑ j ∈ Finset.range (2 ^ depth),
              (folded κ depth f).getD j 0 * (twiddleAt κ depth k ^ 2) ^ j := by
        rw [← hvalue]
        simp [List.getD_eq_getElem?_getD, hleft]
      _ = ∑ j ∈ Finset.range (2 ^ depth),
            ((f j : κ) + FourierScalar.root 1 2 * f (2 ^ depth + j))
              * evaluationPoint κ depth k ^ j := by
        apply Finset.sum_congr rfl
        intro j hj
        rw [getD_folded (Finset.mem_range.1 hj), mul_assoc, ← mul_pow, root_one_mul_twiddleAt_sq hk]
      _ = valueAt (2 ^ (depth + 1)) f (evaluationPoint κ depth k) := by
        -- The upper coefficients belong to the powers from half the size on.
        rw [Butterfly.sum_fold (evaluationPoint_pow_half depth k) fun j => (f j : κ), valueAt,
          pow_succ 2 depth, mul_two]
      _ = (values κ depth f)[k] := by simp [values]

/-- The forward transform evaluates a polynomial. -/
theorem forward_eq_values {depth : Nat} {a : TorusVec} (ha : a.length = 2 ^ (depth + 1)) :
    (ofDepth κ depth).forward a = .ok (values κ depth a.units) := by
  have htwisted : twisted depth a = folded κ depth a.units := by
    apply List.ext_getElem
    · rw [length_twisted ha, length_folded]
    · intro j hj _
      have hj : j < 2 ^ depth := length_twisted (κ := κ) ha ▸ hj
      have hupper : 2 ^ depth + j < a.length := by
        rw [ha, pow_succ]
        omega
      simp [twisted, folded, ofDepth, TorusVec.units, TorusVec.entry, List.getD_eq_getElem?_getD,
        hupper, (Nat.le_add_left j (2 ^ depth)).trans_lt hupper]
  rw [forward_eq_ok ha, htwisted, forward_folded]

/-! ## The backward transform -/

/-- Behind the values of a polynomial are its coefficients, as many times as there are points. -/
theorem untwisted_values (depth : Nat) (f : Nat → Int) :
    untwisted depth (values κ depth f) =
      (List.range (2 ^ depth)).map fun j =>
        FourierScalar.divNat
          (((2 ^ depth : Nat) : κ) * FourierScalar.ofParts (f j) (f (2 ^ depth + j)))
          (2 ^ depth) := by
  have hfactors : ∀ b < 2 ^ depth, twiddleAt κ depth b * untwiddleAt κ depth b = 1 := by
    intro b hb
    rw [twiddleAt_eq hb, untwiddleAt_eq hb, mul_comm, conj_root_mul]
  have hback : Butterfly.backward (untwiddleAt κ depth) depth 0 (values κ depth f) =
      (folded κ depth f).map ((2 : κ) ^ depth * ·) := by
    rw [← forward_folded]
    exact Butterfly.backward_forward hfactors (length_folded depth f) (by omega)
  rw [untwisted, hback]
  apply List.ext_getElem
  · simp [folded]
  · intro j _ hj
    -- The conjugate of the twist takes the twist away.
    have huntwist : ∀ z : κ, z * FourierScalar.root j (2 ^ (depth + 1)) *
        FourierScalar.conj (FourierScalar.root j (2 ^ (depth + 1))) = z := by
      intro z
      rw [mul_assoc, mul_comm (FourierScalar.root _ _), conj_root_mul, mul_one]
    simp [folded, ofDepth, ← mul_assoc, huntwist]

/-- The backward transform reads the coefficients of a polynomial back from its values. -/
theorem backward_values {depth : Nat} {f : Nat → Int}
    (hf : ∀ k < 2 ^ (depth + 1), |f k| < 2 ^ 63) :
    (ofDepth κ depth).backward (values κ depth f) =
      .ok ⟨(List.range (2 ^ (depth + 1))).map fun k => (f k : Torus)⟩ := by
  have hparts : (untwisted depth (values κ depth f)).map FourierScalar.toParts =
      (List.range (2 ^ depth)).map fun j => (f j, f (2 ^ depth + j)) := by
    rw [untwisted_values, List.map_map]
    apply List.map_congr_left
    intro j hj
    have hj : j < 2 ^ depth := List.mem_range.1 hj
    have hlower : j < 2 ^ (depth + 1) := by
      rw [pow_succ]
      omega
    have hupper : 2 ^ depth + j < 2 ^ (depth + 1) := by
      rw [pow_succ]
      omega
    exact toParts_divNat _ _ _ (Nat.two_pow_pos depth) (hf j hlower) (hf _ hupper)
  rw [backward_eq_ok (length_values depth f), hparts, ofPairs, pow_succ, mul_two, List.range_add,
    List.map_append, List.map_map, List.map_map, List.map_map]
  rfl

/-! ## Products -/

/-- Values multiply as polynomials do. -/
theorem zipWith_mul_values (depth : Nat) (f f' : Nat → Int) :
    List.zipWith (· * ·) (values κ depth f) (values κ depth f') =
      values κ depth (negacyclicCoeff (2 ^ (depth + 1)) f f') := by
  apply List.ext_getElem
  · simp
  · intro k _ _
    have hproduct := sum_negacyclicCoeff_mul_pow (evaluationPoint_pow_size (κ := κ) depth k)
      (fun i => (f i : κ)) (fun i => (f' i : κ))
    simp only [← Int.coe_castRingHom, ← map_negacyclicCoeff] at hproduct
    simp only [values, List.getElem_zipWith, List.getElem_map, List.getElem_range, valueAt]
    exact hproduct.symm

/-- Values add up as polynomials do. -/
theorem zipWith_add_values (depth : Nat) (f f' : Nat → Int) :
    List.zipWith (· + ·) (values κ depth f) (values κ depth f') =
      values κ depth fun k => f k + f' k := by
  apply List.ext_getElem
  · simp
  · intro k _ _
    simp [values, valueAt, Finset.sum_add_distrib, add_mul]

theorem replicate_zero_eq_values (depth : Nat) :
    List.replicate (2 ^ depth) 0 = values κ depth fun _ => 0 := by
  apply List.ext_getElem
  · simp
  · intro k _ _
    simp [values, valueAt]

/-- Accumulating products of values adds the products of the polynomials. -/
theorem foldlM_accumulate_values (depth : Nat) (fs gs : List (Nat → Int)) (f : Nat → Int) :
    (List.zipWith Prod.mk (fs.map (values κ depth)) (gs.map (values κ depth))).foldlM
        (fun acc p => accumulate acc p.1 p.2) (values κ depth f) =
      .ok (values κ depth fun k => f k + negacyclicSum (2 ^ (depth + 1)) fs gs k) := by
  induction fs generalizing gs f with
  | nil => simp
  | cons f₁ fs ih =>
    cases gs with
    | nil => simp [negacyclicSum_nil_right]
    | cons g₁ gs =>
      have hstep : accumulate (values κ depth f) (values κ depth f₁) (values κ depth g₁) =
          .ok (values κ depth fun k => f k + negacyclicCoeff (2 ^ (depth + 1)) f₁ g₁ k) := by
        rw [accumulate_eq_ok (by simp) (by simp), zipWith_mul_values, zipWith_add_values]
      rw [List.map_cons, List.map_cons, List.zipWith_cons_cons, List.foldlM_cons, hstep, ok_bind,
        ih]
      simp only [negacyclicSum_cons_cons, add_assoc]

/-- The product of two polynomials by the transform is that of the schoolbook rule, as long as its
coefficients over the integers are in the 64-bit range. -/
theorem mul_eq_ok {depth : Nat} {a b : TorusVec} (ha : a.length = 2 ^ (depth + 1))
    (hb : b.length = 2 ^ (depth + 1))
    (hbound : ∀ k < 2 ^ (depth + 1),
      |negacyclicCoeff (2 ^ (depth + 1)) a.units b.units k| < 2 ^ 63) :
    (ofDepth κ depth).mul a b =
      .ok ⟨(List.range (2 ^ (depth + 1))).map
        (negacyclicCoeff (2 ^ (depth + 1)) a.entry b.entry)⟩ := by
  rw [mul, forward_eq_values ha, ok_bind, forward_eq_values hb, ok_bind,
    zipExact_of_length (by simp), ok_bind, zipWith_mul_values, backward_values hbound]
  simp only [intCast_negacyclicCoeff_units]

theorem mapM_forward_eq_ok {depth : Nat} {as : List TorusVec}
    (has : ∀ a ∈ as, a.length = 2 ^ (depth + 1)) :
    as.mapM (ofDepth κ depth).forward = .ok ((as.map TorusVec.units).map (values κ depth)) := by
  induction as with
  | nil => rfl
  | cons a as ih =>
    have htail := ih fun a' ha' => has a' (by simp [ha'])
    rw [List.mapM_cons, forward_eq_values (has a (by simp)), ok_bind, htail]
    rfl

/-- So is the sum of several products with one backward transform. -/
theorem innerProduct_values {depth : Nat} {fs gs : List (Nat → Int)} (hlen : fs.length = gs.length)
    (hbound : ∀ k < 2 ^ (depth + 1), |negacyclicSum (2 ^ (depth + 1)) fs gs k| < 2 ^ 63) :
    (ofDepth κ depth).innerProduct (fs.map (values κ depth)) (gs.map (values κ depth)) =
      .ok ⟨(List.range (2 ^ (depth + 1))).map fun k =>
        ((negacyclicSum (2 ^ (depth + 1)) fs gs k : Int) : Torus)⟩ := by
  rw [innerProduct, zipExact_of_length (by simpa using hlen), ok_bind, points_ofDepth,
    replicate_zero_eq_values, foldlM_accumulate_values, ok_bind]
  simp only [zero_add]
  exact backward_values hbound

/-- For every power of two from two on there is a transform that multiplies polynomials of this size
as the schoolbook does, modulo `X ^ n + 1`, as long as the product of the centred coefficients over
the integers is below `2 ^ 63`.  The inner product of transformed polynomials is the sum of their
products under the same bound, and nothing for no polynomials. -/
theorem exact_products {n : Nat} (hn : 2 ≤ n) (hpower : n.isPowerOfTwo) :
    ∃ t : Transform κ, ofSize n = .ok t ∧
      (∀ a b : TorusVec, a.length = n → b.length = n →
        (∀ k < n, |negacyclicCoeff n a.units b.units k| < 2 ^ 63) →
        t.mul a b = .ok ⟨(List.range n).map (negacyclicCoeff n a.entry b.entry)⟩) ∧
      (∀ as bs : List TorusVec, as.length = bs.length →
        (∀ a ∈ as, a.length = n) → (∀ b ∈ bs, b.length = n) →
        (∀ k < n, |negacyclicSum n (as.map TorusVec.units) (bs.map TorusVec.units) k| < 2 ^ 63) →
        ∃ ps qs, as.mapM t.forward = .ok ps ∧ bs.mapM t.forward = .ok qs ∧
          t.innerProduct ps qs =
            .ok ⟨(List.range n).map
              (negacyclicSum n (as.map TorusVec.entry) (bs.map TorusVec.entry))⟩) ∧
      t.innerProduct [] [] = .ok ⟨TorusVec.zeros n⟩ := by
  rcases exists_ofSize (κ := κ) hn hpower with ⟨depth, rfl, ht⟩
  refine ⟨ofDepth κ depth, ht, ?_, ?_, ?_⟩
  · intro a b ha hb hbound
    exact mul_eq_ok ha hb hbound
  · intro as bs hlen has hbs hbound
    refine ⟨_, _, mapM_forward_eq_ok has, mapM_forward_eq_ok hbs, ?_⟩
    rw [innerProduct_values (by simpa using hlen) hbound]
    simp only [intCast_negacyclicSum_units]
  · have hempty := @innerProduct_values κ _ depth [] [] rfl (by simp)
    simpa [TorusVec.zeros] using hempty

/-- Four coefficients, one of them half a turn: a product that wraps around, and the sum of the
product with itself in the other order. -/
theorem exact_products_four_coefficients :
    let a : TorusVec := [⟨0x80000000⟩, 1, 0, ⟨2⟩]
    let b : TorusVec := [⟨3⟩, 0, ⟨0xffffffff⟩, 1]
    ∃ t : Transform ℂ, ofSize 4 = .ok t ∧
      t.mul a b = .ok ⟨[⟨0x7fffffff⟩, ⟨5⟩, ⟨0x7ffffffe⟩, ⟨0x80000005⟩]⟩ ∧
      ∃ ps qs, [a, b].mapM t.forward = .ok ps ∧ [b, a].mapM t.forward = .ok qs ∧
        t.innerProduct ps qs = .ok ⟨[⟨0xfffffffe⟩, ⟨10⟩, ⟨0xfffffffc⟩, ⟨10⟩]⟩ := by
  intro a b
  rcases exact_products (κ := ℂ) (n := 4) (by decide) ⟨2, rfl⟩ with ⟨t, ht, hmul, hinner, -⟩
  have hproduct : (List.range 4).map (negacyclicCoeff 4 a.entry b.entry) =
      [⟨0x7fffffff⟩, ⟨5⟩, ⟨0x7ffffffe⟩, ⟨0x80000005⟩] := by decide +kernel
  have hsum : (List.range 4).map
      (negacyclicSum 4 ([a, b].map TorusVec.entry) ([b, a].map TorusVec.entry)) =
      [⟨0xfffffffe⟩, ⟨10⟩, ⟨0xfffffffc⟩, ⟨10⟩] := by decide +kernel
  refine ⟨t, ht, ?_, ?_⟩
  · rw [hmul a b rfl rfl (by decide +kernel), hproduct]
  · rcases hinner [a, b] [b, a] rfl (by simp [a, b]) (by simp [a, b]) (by decide +kernel) with
      ⟨ps, qs, hps, hqs, h⟩
    exact ⟨ps, qs, hps, hqs, by rw [h, hsum]⟩

end Transform

end TorusFHE
