import TorusFHE.Proofs.Fault
import TorusFHE.Scheme.Parameters

/-!
# What validation accepts

`Parameters.Valid` collects the constraints on the nine numbers, one field for a constraint, and
`Parameters.validate` accepts exactly the parameters that meet all of them.

* `Parameters.checkStdDev_eq_ok_iff` and the like: what the single checks accept;
* `Parameters.validate_eq_ok_iff`: validation decides `Parameters.Valid`;
* `Parameters.Valid.rows_lt` and the like: the sizes of an instance are numbers of 64 bits.
-/

namespace TorusFHE

namespace Parameters

variable {p : Parameters}

/-! ## Single checks -/

theorem require_eq_ok_iff {s : Setting} {holds : Prop} [Decidable holds] {o : Objection} :
    require s holds o = .ok () ↔ holds := by
  by_cases h : holds <;> simp [require, h]

theorem checkDimension_eq_ok_iff {s : Setting} {value limit : Nat} :
    checkDimension s value limit = .ok () ↔ 0 < value ∧ value ≤ limit := by
  simp [checkDimension, check_bind_eq_ok_iff, require_eq_ok_iff]

/-- Standard deviations that are finite numbers strictly between zero and the limit. -/
def IsStdDev (value : Binary64) : Prop :=
  value.IsFinite ∧ 0 < value.toRat ∧ value.toRat < stdDevLimit.toRat

theorem checkStdDev_eq_ok_iff {s : Setting} {value : Binary64} :
    checkStdDev s value = .ok () ↔ IsStdDev value := by
  simp [checkStdDev, check_bind_eq_ok_iff, require_eq_ok_iff, IsStdDev, and_assoc]

theorem checkGadget_eq_ok_iff {s t : Setting} {baseLog level : Nat} :
    checkGadget s t baseLog level = .ok () ↔
      0 < baseLog ∧ 0 < level ∧ baseLog * level ≤ 32 := by
  simp [checkGadget, check_bind_eq_ok_iff, require_eq_ok_iff]

/-! ## All checks -/

/-- Parameters that make an instance. -/
structure Valid (p : Parameters) : Prop where
  lweDimension : 0 < p.n ∧ p.n ≤ maxLweDimension
  glweDimension : 0 < p.k ∧ p.k ≤ maxGlweDimension
  polynomialSize : 2 ≤ p.degree ∧ p.degree ≤ maxPolynomialSize
  isPowerOfTwo : p.degree.isPowerOfTwo
  lweStdDev : IsStdDev p.lweStdDev
  glweStdDev : IsStdDev p.glweStdDev
  pbsSizes : 0 < p.pbsBaseLog.toNat ∧ 0 < p.pbsLevel.toNat ∧
    p.pbsBaseLog.toNat * p.pbsLevel.toNat ≤ 32
  ksSizes : 0 < p.ksBaseLog.toNat ∧ 0 < p.ksLevel.toNat ∧
    p.ksBaseLog.toNat * p.ksLevel.toNat ≤ 32

/-- Validation accepts exactly the parameters that make an instance. -/
theorem validate_eq_ok_iff : p.validate = .ok () ↔ p.Valid := by
  simp only [validate, check_bind_eq_ok_iff, checkDimension_eq_ok_iff, require_eq_ok_iff,
    checkStdDev_eq_ok_iff, checkGadget_eq_ok_iff]
  constructor
  · rintro ⟨hn, hk, hdegree, hpower, hlwe, hglwe, hpbs, hks⟩
    exact ⟨hn, hk, ⟨hpower.1, hdegree.2⟩, hpower.2, hlwe, hglwe, hpbs, hks⟩
  · intro h
    -- The size is checked to be positive before it is checked to be at least two.
    have hpos : 0 < p.degree := Nat.lt_of_lt_of_le Nat.two_pos h.polynomialSize.1
    exact ⟨h.lweDimension, h.glweDimension, ⟨hpos, h.polynomialSize.2⟩,
      ⟨h.polynomialSize.1, h.isPowerOfTwo⟩, h.lweStdDev, h.glweStdDev, h.pbsSizes, h.ksSizes⟩

instance (p : Parameters) : Decidable p.Valid :=
  decidable_of_iff (p.validate.toBool = true) (toBool_eq_true_iff.trans validate_eq_ok_iff)

/-! ## Sizes of instances -/

namespace Valid

variable (h : p.Valid)
include h

theorem n_lt : p.n < 2 ^ 64 :=
  h.lweDimension.2.trans_lt (by decide)

theorem k_lt : p.k < 2 ^ 64 :=
  h.glweDimension.2.trans_lt (by decide)

theorem degree_lt : p.degree < 2 ^ 64 :=
  h.polynomialSize.2.trans_lt (by decide)

theorem pbsLevel_le : p.pbsLevel.toNat ≤ 32 :=
  (Nat.le_mul_of_pos_left _ h.pbsSizes.1).trans h.pbsSizes.2.2

theorem ksLevel_le : p.ksLevel.toNat ≤ 32 :=
  (Nat.le_mul_of_pos_left _ h.ksSizes.1).trans h.ksSizes.2.2

theorem rows_lt : (p.k + 1) * p.pbsLevel.toNat < 2 ^ 64 :=
  (Nat.mul_le_mul (Nat.add_le_add_right h.glweDimension.2 1) h.pbsLevel_le).trans_lt (by decide)

theorem samples_lt : p.k * p.degree * p.ksLevel.toNat < 2 ^ 64 :=
  (Nat.mul_le_mul (Nat.mul_le_mul h.glweDimension.2 h.polynomialSize.2) h.ksLevel_le).trans_lt
    (by decide)

end Valid

end Parameters

end TorusFHE
