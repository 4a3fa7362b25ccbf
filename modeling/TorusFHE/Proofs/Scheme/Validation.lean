import TorusFHE.Proofs.Real.Binary64
import TorusFHE.Proofs.Scheme.Parameters
import TorusFHE.Scheme.WordParameters

/-!
# The first violated constraint

Validation asks nine things of the parameters, one of each of them, in a fixed order.  It passes
exactly the parameters that meet all nine constraints, and blames the first one that is violated.
Words of 64 bits and machine numbers do for its checks.

* `Parameters.constraints`: the nine constraints in the order of the checks;
* `Parameters.validate_eq_forM_constraints`: nothing else is checked, and nothing out of turn;
* `Parameters.wordValidate_eq`: the checks on words and machine numbers;
* `Parameters.checked_exact`: what validation decides and reports.
-/

namespace TorusFHE

/-- A word has one bit exactly if its number is a power of two. -/
theorem Word64.isPowerOfTwo_iff {a : UInt64} :
    Word64.isPowerOfTwo a = true ↔ a.toNat.isPowerOfTwo := by
  rw [← Nat.ne_zero_and_sub_one_eq_zero_iff_isPowerOfTwo, isPowerOfTwo]
  by_cases ha : a = 0
  · simp [ha]
  · have hpos : 1 ≤ a := by
      rw [UInt64.le_iff_toNat_le, UInt64.toNat_one, Nat.one_le_iff_ne_zero, ne_eq,
        ← UInt64.toNat_zero, UInt64.toNat_inj]
      exact ha
    have hword : a &&& (a - 1) = 0 ↔ a.toNat &&& (a.toNat - 1) = 0 := by
      rw [← UInt64.toNat_inj, UInt64.toNat_and, UInt64.toNat_sub_of_le _ _ hpos, UInt64.toNat_one,
        UInt64.toNat_zero]
    have hne : a.toNat ≠ 0 := by
      rwa [ne_eq, ← UInt64.toNat_zero, UInt64.toNat_inj]
    simp [ha, hne, hword]

namespace Parameters

/-! ## Constraints -/

/-- A condition on a setting, and what is objected where it does not hold. -/
structure Constraint where
  setting : Setting
  Holds : Prop
  objection : Objection
  [decidable : Decidable Holds]

namespace Constraint

instance (c : Constraint) : Decidable c.Holds :=
  c.decidable

def check (c : Constraint) : Except InvalidSetting Unit :=
  require c.setting c.Holds c.objection

theorem check_eq_error_iff {c : Constraint} {e : InvalidSetting} :
    c.check = .error e ↔ ¬c.Holds ∧ e = ⟨c.setting, c.objection⟩ := by
  by_cases h : c.Holds <;> simp [check, require, h, eq_comm]

/-- Constraints are refused exactly if one of them is violated, and the first such one is blamed. -/
theorem forM_check_eq_error_iff {cs : List Constraint} {e : InvalidSetting} :
    cs.forM check = .error e ↔
      ∃ (before : List Constraint) (c : Constraint) (after : List Constraint),
        cs = before ++ c :: after ∧ (∀ d ∈ before, d.Holds) ∧ ¬c.Holds ∧
        e = ⟨c.setting, c.objection⟩ := by
  simp only [forM_eq_error_iff, check_eq_error_iff]
  simp only [check, require_eq_ok_iff]

/-- A dimension from one to a limit. -/
def dimension (s : Setting) (value limit : Nat) : Constraint where
  setting := s
  Holds := 1 ≤ value ∧ value ≤ limit
  objection := if 0 < value then .exceeds value limit else .zero

/-- A power of two from two to a limit. -/
def size (s : Setting) (value limit : Nat) : Constraint where
  setting := s
  Holds := 2 ≤ value ∧ value ≤ limit ∧ value.isPowerOfTwo
  objection :=
    if 0 < value ∧ value ≤ limit then .notPowerOfTwo value
    else (dimension s value limit).objection

/-- A finite number strictly between zero and `1 / 32`. -/
def stdDev (s : Setting) (value : Binary64) : Constraint where
  setting := s
  Holds := value.IsFinite ∧ 0 < value.toRat ∧ value.toRat < 1 / 32
  objection :=
    if value.IsFinite ∧ 0 < value.toRat then .notBelow value stdDevLimit else .notPositive value

def baseLog (s : Setting) (value : Nat) : Constraint where
  setting := s
  Holds := 1 ≤ value
  objection := .zero

/-- A depth that goes with a base: together they cover the 32 bits of the torus at most. -/
def level (s : Setting) (base value : Nat) : Constraint where
  setting := s
  Holds := 1 ≤ value ∧ base * value ≤ 32
  objection := if 0 < value then .tooManyBits base value else .zero

end Constraint

open Constraint

/-- The nine constraints, in the order in which they are checked. -/
def constraints (p : Parameters) : List Constraint :=
  [dimension .lweDimension p.n (2 ^ 16), dimension .glweDimension p.k (2 ^ 8),
    size .polynomialSize p.degree (2 ^ 16),
    stdDev .lweStdDev p.lweStdDev, stdDev .glweStdDev p.glweStdDev,
    baseLog .pbsBaseLog p.pbsBaseLog.toNat,
    level .pbsLevel p.pbsBaseLog.toNat p.pbsLevel.toNat,
    baseLog .ksBaseLog p.ksBaseLog.toNat,
    level .ksLevel p.ksBaseLog.toNat p.ksLevel.toNat]

/-! ## Checks of one setting -/

section Require

variable {s : Setting} {a b : Prop} [Decidable a] [Decidable b] {o o' : Objection}

theorem require_congr (h : a ↔ b) : require s a o = require s b o := by
  by_cases hb : b <;> simp [require, h, hb]

/-- Only what is asked behind a condition that holds matters. -/
theorem require_bind_congr {x y : Unit → Except InvalidSetting Unit} (h : a ↔ b)
    (hxy : a → x () = y ()) : (require s a o >>= x) = (require s b o >>= y) := by
  by_cases ha : a
  · simpa [require, ha, h.1 ha] using hxy ha
  · simp [require, ha, mt h.2 ha]

/-- Two conditions on one setting are one. -/
theorem require_bind_require :
    (require s a o >>= fun _ => require s b o') = require s (a ∧ b) (if a then o' else o) := by
  by_cases ha : a <;> by_cases hb : b <;> simp [require, ha, hb]

end Require

theorem toRat_stdDevLimit : stdDevLimit.toRat = 1 / 32 := by
  decide +kernel

theorem checkDimension_eq (s : Setting) (value limit : Nat) :
    checkDimension s value limit = (dimension s value limit).check := by
  rw [checkDimension, require_bind_require]
  rfl

theorem checkSize_eq (s : Setting) (value limit : Nat) :
    (checkDimension s value limit >>= fun _ =>
        require s (2 ≤ value ∧ value.isPowerOfTwo) (.notPowerOfTwo value)) =
      (size s value limit).check := by
  have hholds : (1 ≤ value ∧ value ≤ limit) ∧ 2 ≤ value ∧ value.isPowerOfTwo ↔
      2 ≤ value ∧ value ≤ limit ∧ value.isPowerOfTwo := by
    constructor
    · rintro ⟨⟨-, hlimit⟩, htwo, hpower⟩
      exact ⟨htwo, hlimit, hpower⟩
    · rintro ⟨htwo, hlimit, hpower⟩
      exact ⟨⟨Nat.one_lt_two.le.trans htwo, hlimit⟩, htwo, hpower⟩
  rw [checkDimension, require_bind_require, require_bind_require]
  exact require_congr hholds

theorem checkStdDev_eq (s : Setting) (value : Binary64) :
    checkStdDev s value = (stdDev s value).check := by
  rw [checkStdDev, require_bind_require]
  refine require_congr ?_
  rw [toRat_stdDevLimit, and_assoc]
  rfl

theorem checkGadget_eq (s t : Setting) (base value : Nat) :
    checkGadget s t base value =
      ((baseLog s base).check >>= fun _ => (level t base value).check) := by
  rw [checkGadget, require_bind_require]
  rfl

/-- Nothing but the constraints is checked, and nothing out of turn. -/
theorem validate_eq_forM_constraints (p : Parameters) : p.validate = p.constraints.forM check := by
  have hsize := checkSize_eq .polynomialSize p.degree (2 ^ 16)
  simp only [constraints, List.forM_eq_forM, List.forM_cons, List.forM_nil, ← hsize,
    ← checkDimension_eq, ← checkStdDev_eq, bind_assoc, bind_pure_unit]
  simp only [validate, checkGadget_eq, bind_assoc]
  rfl

/-! ## Checks on words and machine numbers -/

theorem wordCheckPositive_eq (s : Setting) (value : UInt64) :
    wordCheckPositive s value = require s (0 < value.toNat) .zero := by
  refine require_congr ?_
  rw [Nat.pos_iff_ne_zero, ne_eq, ne_eq, ← UInt64.toNat_inj, UInt64.toNat_zero]

theorem wordCheckDimension_eq (s : Setting) (value limit : UInt64) :
    wordCheckDimension s value limit = checkDimension s value.toNat limit.toNat := by
  rw [wordCheckDimension, checkDimension, wordCheckPositive_eq]
  refine require_bind_congr Iff.rfl fun _ => require_congr ?_
  rw [UInt64.not_lt, UInt64.le_iff_toNat_le]

theorem floatCheckStdDev_eq (s : Setting) (value : Binary64) :
    floatCheckStdDev s value = checkStdDev s value := by
  have hzero : (0 : Float) = Binary64.toFloat ⟨0⟩ := by decide +kernel
  have hlimit : (1 / 32 : Float) = stdDevLimit.toFloat := by decide +kernel
  have hzeroValue : Binary64.toRat ⟨0⟩ = 0 := by decide +kernel
  rw [floatCheckStdDev, checkStdDev]
  refine require_bind_congr ?_ ?_
  · rw [Binary64.isFinite_toFloat_iff]
    refine and_congr_right fun hfinite => ?_
    rw [hzero, Binary64.toFloat_le_iff hfinite (by decide), hzeroValue, not_le]
  · -- The second comparison is one of finite numbers, as the first condition holds.
    rintro ⟨hfinite, -⟩
    refine require_congr ?_
    rw [hlimit, Binary64.toFloat_le_iff (by decide) (Binary64.isFinite_toFloat_iff.1 hfinite),
      not_le]

theorem wordCheckGadget_eq (s t : Setting) (baseLog level : UInt64) :
    wordCheckGadget s t baseLog level = checkGadget s t baseLog.toNat level.toNat := by
  rw [wordCheckGadget, checkGadget, wordCheckPositive_eq, wordCheckPositive_eq]
  refine require_bind_congr Iff.rfl fun _ => require_bind_congr Iff.rfl fun _ => require_congr ?_
  rw [Word64.mul?, Word64.ofNat?]
  by_cases h : baseLog.toNat * level.toNat < UInt64.size
  · have hvalue : (UInt64.ofNat (baseLog.toNat * level.toNat)).toNat = baseLog.toNat * level.toNat :=
      UInt64.toNat_ofNat_of_lt' h
    rw [if_pos h, Option.all_some, decide_eq_true_iff, UInt64.lt_iff_toNat_lt, hvalue, not_lt]
    rfl
  · have hlarge : ¬baseLog.toNat * level.toNat ≤ 32 := fun hle => h (hle.trans_lt (by decide))
    rw [if_neg h, Option.all_none]
    simp [hlarge]

/-- Validation needs no more than words of 64 bits and machine numbers. -/
theorem wordValidate_eq (p : Parameters) : p.wordValidate = p.validate := by
  have hpower : ¬p.polynomialSize < 2 ∧ Word64.isPowerOfTwo p.polynomialSize = true ↔
      2 ≤ p.degree ∧ p.degree.isPowerOfTwo := by
    rw [Word64.isPowerOfTwo_iff, UInt64.not_lt, UInt64.le_iff_toNat_le]
    rfl
  simp only [wordValidate, wordCheckDimension_eq, floatCheckStdDev_eq, wordCheckGadget_eq,
    require_congr hpower]
  rfl

/-! ## Validation -/

/-- Validation passes the nine numbers unchanged exactly if each of them is in its range, and
otherwise blames the first violated constraint in the order of the settings.  It does so on words and
machine numbers as well, where products overflow and patterns are not numbers. -/
theorem checked_exact (p : Parameters) :
    (∀ q, p.checked = .ok q ↔ q = p ∧
      (1 ≤ p.n ∧ p.n ≤ 2 ^ 16) ∧ (1 ≤ p.k ∧ p.k ≤ 2 ^ 8) ∧
      (2 ≤ p.degree ∧ p.degree ≤ 2 ^ 16 ∧ p.degree.isPowerOfTwo) ∧
      (p.lweStdDev.IsFinite ∧ 0 < p.lweStdDev.toRat ∧ p.lweStdDev.toRat < 1 / 32) ∧
      (p.glweStdDev.IsFinite ∧ 0 < p.glweStdDev.toRat ∧ p.glweStdDev.toRat < 1 / 32) ∧
      1 ≤ p.pbsBaseLog.toNat ∧
      (1 ≤ p.pbsLevel.toNat ∧ p.pbsBaseLog.toNat * p.pbsLevel.toNat ≤ 32) ∧
      1 ≤ p.ksBaseLog.toNat ∧
      (1 ≤ p.ksLevel.toNat ∧ p.ksBaseLog.toNat * p.ksLevel.toNat ≤ 32)) ∧
    (∀ e, p.checked = .error e ↔
      ∃ (before : List Constraint) (c : Constraint) (after : List Constraint),
        p.constraints = before ++ c :: after ∧ (∀ d ∈ before, d.Holds) ∧ ¬c.Holds ∧
        e = ⟨c.setting, c.objection⟩) ∧
    p.constraints.map (fun c => c.setting.name) =
      ["lwe_dimension", "glwe_dimension", "polynomial_size", "lwe_modular_std_dev",
        "glwe_modular_std_dev", "pbs_base_log", "pbs_level", "ks_base_log", "ks_level"] ∧
    p.wordValidate = p.validate := by
  refine ⟨fun q => ?_, fun e => ?_, rfl, p.wordValidate_eq⟩
  · have hholds : p.validate = .ok () ↔ ∀ c ∈ p.constraints, c.Holds := by
      rw [validate_eq_forM_constraints, forM_eq_ok_iff]
      simp only [check, require_eq_ok_iff]
    rw [checked, check_bind_eq_ok_iff, hholds, and_comm, pure_eq_ok, Except.ok.injEq, eq_comm]
    simp only [constraints, List.forall_mem_cons, List.not_mem_nil, false_imp_iff, implies_true,
      and_true]
    rfl
  · rw [checked, check_bind_eq_error_iff, validate_eq_forM_constraints, forM_check_eq_error_iff]
    simp

/-- The product of base and depth is zero in 64 bits, and a deviation is the least positive
number. -/
example :
    let p : Parameters :=
      ⟨1, 1, 2, ⟨1⟩, ⟨0x3f90000000000000⟩, 32, 1, 0x8000000000000000, 2⟩
    p.wordValidate = .error ⟨.ksLevel, .tooManyBits (2 ^ 63) 2⟩ := by
  decide +kernel

end Parameters

end TorusFHE
