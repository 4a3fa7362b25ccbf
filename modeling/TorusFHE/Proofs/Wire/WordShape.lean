import Mathlib.Algebra.Order.BigOperators.GroupWithZero.List
import TorusFHE.Proofs.Torus.WordGadget
import TorusFHE.Proofs.Wire.FirstViolation
import TorusFHE.Wire.WordShape

/-!
# Words do for shape checks

Parameters that passed their own check prescribe sizes far below `2 ^ 64`, and none of their numbers
is zero, so a product cannot overflow on the way to a small result.  The shape check on words
therefore always comes to an answer, never blames an overflow, and agrees with the check on numbers.

* `Word64.exists_product?`: a product of positive factors that fits is found;
* `ServerKey.wordCheckShape?_eq`: the check on words is the check on numbers;
* `ServerKey.checkShape_exact`: what the shape check of a server key decides and reports.
-/

namespace TorusFHE

/-! ## Products of words -/

namespace Word64

theorem exists_ofNat? {n : Nat} (h : n < 2 ^ 64) : ∃ w, ofNat? n = some w ∧ w.toNat = n :=
  ⟨_, ofNat?_of_lt h, toNat_ofNat_of_lt h⟩

/-- Positive factors do not make a product smaller, so none on the way is larger than the last. -/
theorem exists_foldlM_mul? {factors : List UInt64} (hpos : ∀ f ∈ factors, 0 < f.toNat)
    {a : UInt64} (h : a.toNat * (factors.map UInt64.toNat).prod < 2 ^ 64) :
    ∃ w, factors.foldlM mul? a = some w ∧ w.toNat = a.toNat * (factors.map UInt64.toNat).prod := by
  induction factors generalizing a with
  | nil => exact ⟨a, rfl, by simp⟩
  | cons f factors ih =>
    rcases List.forall_mem_cons.1 hpos with ⟨-, hrest⟩
    have hprod : 0 < (factors.map UInt64.toNat).prod :=
      List.prod_pos (by simpa using hrest)
    rw [List.map_cons, List.prod_cons, ← mul_assoc] at h
    have hstep : a.toNat * f.toNat < 2 ^ 64 := (Nat.le_mul_of_pos_right _ hprod).trans_lt h
    rcases exists_ofNat? hstep with ⟨b, hb, hvalue⟩
    rcases ih hrest (hvalue ▸ h) with ⟨w, hw, hwvalue⟩
    refine ⟨w, ?_, ?_⟩
    · rw [List.foldlM_cons, mul?, hb]
      exact hw
    · rw [hwvalue, hvalue, List.map_cons, List.prod_cons, mul_assoc]

theorem exists_product? {factors : List UInt64} (hpos : ∀ f ∈ factors, 0 < f.toNat)
    (h : (factors.map UInt64.toNat).prod < 2 ^ 64) :
    ∃ w, product? factors = some w ∧ w.toNat = (factors.map UInt64.toNat).prod := by
  simpa [product?] using exists_foldlM_mul? hpos (a := 1) (by simpa using h)

end Word64

theorem ShapeCheck.exists_product (part : SizedPart) {factors : List UInt64}
    (hpos : ∀ f ∈ factors, 0 < f.toNat) (h : (factors.map UInt64.toNat).prod < 2 ^ 64) :
    ∃ w, product part factors = .ok w ∧ w.toNat = (factors.map UInt64.toNat).prod := by
  rcases Word64.exists_product? hpos h with ⟨w, hw, hvalue⟩
  exact ⟨w, by rw [product, hw], hvalue⟩

/-! ## Sizes of an instance -/

namespace Parameters.Valid

variable {p : Parameters} (hp : p.Valid)
include hp

/-- One more than the number of mask polynomials is a word. -/
theorem exists_polynomials :
    ∃ w, Word64.add? p.glweDimension 1 = some w ∧ w.toNat = p.k + 1 := by
  have hlt : p.k + 1 < 2 ^ 64 := by
    have hk : p.k ≤ maxGlweDimension := hp.glweDimension.2
    rw [maxGlweDimension] at hk
    omega
  exact Word64.exists_ofNat? hlt

theorem exists_rows {w : UInt64} (hw : w.toNat = p.k + 1) :
    ∃ rows, ShapeCheck.product .ggsw [w, p.pbsLevel] = .ok rows ∧
      rows.toNat = (p.k + 1) * p.pbsLevel.toNat := by
  have hpos : ∀ f ∈ [w, p.pbsLevel], 0 < f.toNat := by
    simp [hw, hp.pbsSizes.2.1]
  have hprod : ([w, p.pbsLevel].map UInt64.toNat).prod = (p.k + 1) * p.pbsLevel.toNat := by
    simp [hw]
  rw [← hprod]
  exact ShapeCheck.exists_product _ hpos (hprod ▸ hp.rows_lt)

theorem exists_samples :
    ∃ samples,
      ShapeCheck.product .keySwitchingKey [p.glweDimension, p.polynomialSize, p.ksLevel] =
        .ok samples ∧
      samples.toNat = p.k * p.degree * p.ksLevel.toNat := by
  have hk : 0 < p.glweDimension.toNat := hp.glweDimension.1
  have hdegree : 0 < p.polynomialSize.toNat := Nat.two_pos.trans_le hp.polynomialSize.1
  have hpos : ∀ f ∈ [p.glweDimension, p.polynomialSize, p.ksLevel], 0 < f.toNat := by
    simp [hk, hdegree, hp.ksSizes.2.1]
  have hprod : ([p.glweDimension, p.polynomialSize, p.ksLevel].map UInt64.toNat).prod =
      p.k * p.degree * p.ksLevel.toNat := by
    simp [k, degree, mul_assoc]
  rw [← hprod]
  exact ShapeCheck.exists_product _ hpos (hprod ▸ hp.samples_lt)

end Parameters.Valid

/-! ## The check of a server key -/

namespace ServerKey

/-- With the numbers that the parameters prescribe, the lengths are checked as without words. -/
theorem checkShape_eq_checkLengths {k : ServerKey} {rows samples : UInt64}
    (hrows : rows.toNat = (k.params.k + 1) * k.params.pbsLevel.toNat)
    (hsamples : samples.toNat = k.params.k * k.params.degree * k.params.ksLevel.toNat) :
    k.checkShape = (k.params.checkShape >>= fun _ => k.checkLengths rows samples) := by
  rw [checkLengths, hrows, hsamples]
  rfl

/-- The check on words has an answer, and it is that of the check on numbers. -/
theorem wordCheckShape?_eq (k : ServerKey) :
    k.wordCheckShape? = some (k.checkShape.mapError .shape) := by
  cases hparams : k.params.checkShape with
  | error e =>
    have hcheck : k.checkShape = .error e := by
      rw [checkShape, hparams, error_bind]
    rw [wordCheckShape?, hparams, hcheck, mapError_error]
  | ok =>
    have hp : k.params.Valid := Parameters.checkShape_eq_ok_iff.1 hparams
    rcases hp.exists_polynomials with ⟨w, hw, hwvalue⟩
    rcases hp.exists_rows hwvalue with ⟨rows, hrows, hrowsvalue⟩
    rcases hp.exists_samples with ⟨samples, hsamples, hsamplesvalue⟩
    rw [checkShape_eq_checkLengths hrowsvalue hsamplesvalue, hparams, ok_bind]
    simp [wordCheckShape?, hparams, hw, hrows, hsamples]

/-- The shape check accepts exactly the keys with valid parameters and all sizes as these prescribe.
It blames the parameters if they are not valid, and otherwise the first length on its way that does
not fit.  No product of sizes overflows in it. -/
theorem checkShape_exact (k : ServerKey) :
    (k.checkShape = .ok () ↔ k.params.Valid ∧ k.Sized k.params) ∧
      (∀ e, k.checkShape = .error e ↔
        (∃ cause, k.params.validate = .error cause ∧ e = .parameters cause) ∨
          k.params.Valid ∧
            ∃ before l after, k.lengths = before ++ l :: after ∧
              (∀ m ∈ before, m.expected = m.found) ∧ l.expected ≠ l.found ∧
              e = .size l.part l.expected l.found) ∧
      k.wordCheckShape? = some (k.checkShape.mapError .shape) := by
  refine ⟨⟨fun h => ?_, fun h => h.2.checkShape h.1⟩, fun e => checkShape_eq_error_iff,
    k.wordCheckShape?_eq⟩
  exact ⟨(checkShape_eq_ok_iff.1 h).1, sized_of_checkShape h⟩

end ServerKey

end TorusFHE
