import TorusFHE.Proofs.Fourier.Layers
import TorusFHE.Proofs.Fourier.Product

/-!
# The forward transform as evaluation

Over the complex numbers, entry `k` of the transform of a polynomial is its value at the power
`4 * r + 1` of `e ^ (iπ / n)`, where `r` has the bits of `k` in reverse.  The transform computes these
values from the folded and twisted coefficients in layers of butterflies.

* `Transform.getElem?_values`: the values in terms of powers of one root;
* `Transform.forward_evaluates`: the forward transform, entry by entry.
-/

namespace TorusFHE.Transform

open ExactScalar (root_mul_left)

section Values

variable {κ : Type} [ExactScalar κ] {depth k : Nat}

/-- The point in position `k` is an odd power of the first root. -/
theorem evaluationPoint_eq_pow (depth k : Nat) :
    evaluationPoint κ depth k =
      FourierScalar.root 1 (2 ^ (depth + 1)) ^ (4 * reverseIndex depth k + 1) := by
  rw [evaluationPoint, ← root_mul_left, Nat.mul_one]

theorem getElem?_values (hk : k < 2 ^ depth) (f : Nat → Int) :
    (values κ depth f)[k]? =
      some (∑ j ∈ Finset.range (2 ^ (depth + 1)),
        (f j : κ) *
          FourierScalar.root 1 (2 ^ (depth + 1)) ^ (j * (4 * reverseIndex depth k + 1))) := by
  have hentry : (values κ depth f)[k]? =
      some (valueAt (2 ^ (depth + 1)) f (evaluationPoint κ depth k)) := by
    simp [values, hk]
  rw [hentry, valueAt, evaluationPoint_eq_pow]
  simp only [← pow_mul, Nat.mul_comm]

end Values

/-- The transform runs in layers: its points are those of the twisted coefficients after all
layers. -/
theorem forward_eq_forwardLayers {κ : Type} [FourierScalar κ] {depth : Nat} {a : TorusVec}
    (ha : a.length = 2 ^ (depth + 1)) :
    (ofDepth κ depth).forward a =
      .ok (Butterfly.forwardLayers (twiddleAt κ depth) depth 1 (twisted depth a)) := by
  rw [forward_eq_ok ha, Butterfly.forwardLayers_eq_forward (length_twisted ha)]

/-- For every power of two from two on there is a transform over the complex numbers, and entry `k`
of the transform of a polynomial is its value at the power `4 * r + 1` of `e ^ (iπ / n)`, where `r`
is the reversal of the bits of `k`.  All layers of butterflies on the folded and twisted coefficients
yield these entries. -/
theorem forward_evaluates {n : Nat} (hn : 2 ≤ n) (hpower : n.isPowerOfTwo) :
    (∀ k, reverseIndex (n / 2).log2 k < n / 2 ∧ ∀ i < (n / 2).log2,
      (reverseIndex (n / 2).log2 k).testBit i = k.testBit ((n / 2).log2 - 1 - i)) ∧
    ∃ t : Transform ℂ, ofSize n = .ok t ∧
      ∀ a : TorusVec, a.length = n → ∃ ps, t.forward a = .ok ps ∧ ps.length = n / 2 ∧
        ps = Butterfly.forwardLayers (fun c => t.twiddle.getD c 0) (n / 2).log2 1
          (twisted (n / 2).log2 a) ∧
        ∀ k < n / 2, ps[k]? = some (∑ j ∈ Finset.range n,
          ((a.entry j).centered : ℂ) *
            Complex.exp (Real.pi * Complex.I / n) ^
              (j * (4 * reverseIndex (n / 2).log2 k + 1))) := by
  rcases exists_ofSize (κ := ℂ) hn hpower with ⟨depth, rfl, ht⟩
  rw [two_pow_succ_div_two, Nat.log2_two_pow]
  refine ⟨fun k => ⟨reverseIndex_lt depth k, fun i hi => testBit_reverseIndex hi k⟩,
    ofDepth ℂ depth, ht, fun a ha => ?_⟩
  have hvalues := forward_eq_values (κ := ℂ) ha
  have hlayers := forward_eq_forwardLayers (κ := ℂ) ha
  refine ⟨_, hvalues, length_values depth _, ?_, ?_⟩
  · exact Except.ok.inj (hvalues.symm.trans hlayers)
  · intro k hk
    have hroot : (FourierScalar.root 1 (2 ^ (depth + 1)) : ℂ) =
        Complex.exp (Real.pi * Complex.I / (2 ^ (depth + 1) : Nat)) := by
      change complexRoot 1 (2 ^ (depth + 1)) = _
      rw [complexRoot, Nat.cast_one, one_div_mul_eq_div]
    rw [getElem?_values hk, hroot]
    rfl

/-- Eight coefficients, with minus three in position two: the second entry of the transform is minus
three times the power `2 * (4 * 2 + 1)` of the root, as the reversal of `01` is `10`. -/
theorem forward_evaluates_eight_coefficients :
    let a : TorusVec := [0, 0, ⟨0xfffffffd⟩, 0, 0, 0, 0, 0]
    ∃ t : Transform ℂ, ofSize 8 = .ok t ∧ ∃ ps, t.forward a = .ok ps ∧ ps.length = 4 ∧
      ps[1]? = some (-3 * Complex.exp (Real.pi * Complex.I / 8) ^ 18) := by
  intro a
  rcases forward_evaluates (n := 8) (by decide) ⟨3, rfl⟩ with ⟨-, t, ht, hforward⟩
  rcases hforward a rfl with ⟨ps, hps, hlen, -, hentry⟩
  refine ⟨t, ht, ps, hps, hlen, ?_⟩
  have hlog : (8 / 2 : Nat).log2 = 2 := by decide
  have hreverse : reverseIndex 2 1 = 2 := rfl
  have hcoefficient : (⟨0xfffffffd⟩ : Torus).centered = -3 := by decide
  have hzero : (0 : Torus).centered = 0 := by decide
  rw [hentry 1 (by decide), hlog, hreverse]
  simp [Finset.sum_range_succ, a, TorusVec.entry, hcoefficient, hzero]

end TorusFHE.Transform
