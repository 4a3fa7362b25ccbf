import Mathlib.Algebra.Order.Floor.Ring
import Mathlib.Data.Rat.Floor
import Mathlib.Tactic.FieldSimp
import Mathlib.Tactic.Linarith
import Mathlib.Tactic.NormNum
import Mathlib.Tactic.Ring
import TorusFHE.Proofs.Real.Binary64

/-!
# Rounding of exact values

Rounding works on significands, by shifts.  On exact values it gives the nearest integer, and of two
at the same distance the one further from zero, which is described here by a predicate and by a
formula over the rationals.  Dropping the integer part works on significands too.

* `isNearestAway_iff`: the predicate and the formula agree;
* `Binary64.signed_roundMagnitude` and `Binary64.signed_fractionalSignificand`: shifts and
  remainders of significands are these operations on exact values;
* `Binary64.toRat_flipSign`: a number with its sign bit flipped has the opposite value;
* `Binary64.isFinite_toRat_ofScaledInt` and `Binary64.isFinite_toRat_fraction`: dyadic fractions
  with small numerators are exact, and so are the fractions of all finite numbers.
-/

namespace TorusFHE

/-! ## The nearest integer -/

/-- The integer nearest to `q`, of two at the same distance the one further from zero. -/
structure IsNearestAway (q : Rat) (i : Int) : Prop where
  abs_sub_le : |q - i| ≤ 1 / 2
  away : |q - i| = 1 / 2 → |q| < |(i : Rat)|

/-- The nearest integer, halves away from zero. -/
def roundAway (q : Rat) : Int :=
  if 0 ≤ q then ⌊q + 1 / 2⌋ else ⌈q - 1 / 2⌉

/-- The integer part, towards zero. -/
def truncate (q : Rat) : Int :=
  if 0 ≤ q then ⌊q⌋ else ⌈q⌉

section Nearest

variable {q : Rat} {i : Int}

theorem roundAway_of_nonneg (hq : 0 ≤ q) : roundAway q = ⌊q + 1 / 2⌋ :=
  if_pos hq

theorem truncate_of_nonneg (hq : 0 ≤ q) : truncate q = ⌊q⌋ :=
  if_pos hq

/-- A function that keeps the signs of positive numbers keeps all signs. -/
theorem map_neg_of_pos {f : Rat → Int} (hzero : f 0 = 0) (hpos : ∀ p, 0 < p → f (-p) = -f p)
    (q : Rat) : f (-q) = -f q := by
  rcases lt_trichotomy q 0 with hq | rfl | hq
  · have h : f (-(-q)) = -f (-q) := hpos (-q) (neg_pos.2 hq)
    rw [neg_neg] at h
    rw [h, neg_neg]
  · rw [neg_zero, hzero, neg_zero]
  · exact hpos q hq

theorem roundAway_neg (q : Rat) : roundAway (-q) = -roundAway q := by
  refine map_neg_of_pos (by decide +kernel) (fun p hp => ?_) q
  have hnot : ¬0 ≤ -p := by linarith
  calc
    roundAway (-p) = ⌈-(p + 1 / 2)⌉ := by
      rw [roundAway, if_neg hnot]
      congr 1
      ring
    _ = -roundAway p := by rw [Int.ceil_neg, roundAway_of_nonneg hp.le]

theorem truncate_neg (q : Rat) : truncate (-q) = -truncate q := by
  refine map_neg_of_pos (by decide +kernel) (fun p hp => ?_) q
  have hnot : ¬0 ≤ -p := by linarith
  rw [truncate, if_neg hnot, Int.ceil_neg, truncate_of_nonneg hp.le]

/-- What truncation takes away leaves less than one, with the sign of the number. -/
theorem abs_sub_truncate_lt (q : Rat) : |q - truncate q| < 1 := by
  rw [abs_lt, truncate]
  split
  · have hle : (⌊q⌋ : Rat) ≤ q := Int.floor_le q
    have hlt : q < ⌊q⌋ + 1 := Int.lt_floor_add_one q
    constructor <;> linarith
  · have hle : q ≤ ⌈q⌉ := Int.le_ceil q
    have hlt : (⌈q⌉ : Rat) < q + 1 := Int.ceil_lt_add_one q
    constructor <;> linarith

theorem isNearestAway_neg_iff : IsNearestAway (-q) (-i) ↔ IsNearestAway q i := by
  have hdist : |-q - (-i : Int)| = |q - i| := by
    rw [← abs_neg]
    push_cast
    congr 1
    ring
  have hint : |((-i : Int) : Rat)| = |(i : Rat)| := by
    rw [Int.cast_neg, abs_neg]
  constructor
  · rintro ⟨hle, haway⟩
    rw [hdist] at hle haway
    rw [abs_neg, hint] at haway
    exact ⟨hle, haway⟩
  · rintro ⟨hle, haway⟩
    refine ⟨hdist.trans_le hle, ?_⟩
    rw [hdist, abs_neg, hint]
    exact haway

/-- A half of a positive number goes up. -/
theorem IsNearestAway.lt_add_half (h : IsNearestAway q i) (hq : 0 ≤ q) : q < i + 1 / 2 := by
  rcases h with ⟨hle, haway⟩
  rw [abs_le] at hle
  by_contra hnot
  -- Halfway above `i`, which is then nearer to zero than `q` unless it is negative.
  have heq : q - i = 1 / 2 := by linarith
  have hfar : q < |(i : Rat)| := by
    have habs : |q| < |(i : Rat)| := haway (by rw [heq, abs_of_pos (by norm_num)])
    rwa [abs_of_nonneg hq] at habs
  have hneg : i < 0 := by
    by_contra hnonneg
    have hcast : (0 : Rat) ≤ i := by exact_mod_cast not_lt.1 hnonneg
    rw [abs_of_nonneg hcast] at hfar
    linarith
  have hcast : (i : Rat) ≤ -1 := by exact_mod_cast Int.le_sub_one_of_lt hneg
  linarith

theorem isNearestAway_iff_of_nonneg (hq : 0 ≤ q) : IsNearestAway q i ↔ i = roundAway q := by
  rw [roundAway_of_nonneg hq, eq_comm, Int.floor_eq_iff]
  constructor
  · intro h
    have hle := abs_le.1 h.abs_sub_le
    have hlt := h.lt_add_half hq
    constructor <;> linarith
  · rintro ⟨hle, hlt⟩
    constructor
    · rw [abs_le]
      constructor <;> linarith
    · intro hhalf
      have heq : (i : Rat) = q + 1 / 2 := by
        rcases (abs_eq (by norm_num)).1 hhalf with h | h <;> linarith
      rw [heq, abs_of_nonneg hq, abs_of_nonneg (by linarith)]
      linarith

/-- There is one nearest integer, and the formula gives it. -/
theorem isNearestAway_iff : IsNearestAway q i ↔ i = roundAway q := by
  rcases le_total 0 q with hq | hq
  · exact isNearestAway_iff_of_nonneg hq
  · rw [← isNearestAway_neg_iff, isNearestAway_iff_of_nonneg (neg_nonneg.2 hq), roundAway_neg,
      neg_inj]

theorem isNearestAway_roundAway (q : Rat) : IsNearestAway q (roundAway q) :=
  isNearestAway_iff.2 rfl

theorem roundAway_intCast (i : Int) : roundAway i = i := by
  refine (isNearestAway_iff.1 ⟨?_, fun h => ?_⟩).symm
  · norm_num
  · norm_num at h

end Nearest

namespace Binary64

variable (v : Binary64)

/-! ## Rounding and truncation of significands -/

theorem ofNat_mul_zpow_of_nonneg (m : Nat) {e : Int} (he : 0 ≤ e) :
    (m : Rat) * 2 ^ e = (m * 2 ^ e.toNat : Nat) := by
  lift e to Nat using he
  simp

theorem ofNat_mul_zpow_of_neg (m : Nat) {e : Int} (he : e < 0) :
    (m : Rat) * 2 ^ e = m / (2 ^ (-e).toNat : Nat) := by
  obtain ⟨k, rfl⟩ : ∃ k : Nat, e = -(k : Int) := ⟨(-e).toNat, by omega⟩
  simp [div_eq_mul_inv]

theorem roundMagnitude_eq (m : Nat) (e : Int) :
    (roundMagnitude m e : Int) = roundAway ((m : Rat) * 2 ^ e) := by
  rw [roundMagnitude]
  split
  · next he =>
    rw [ofNat_mul_zpow_of_nonneg m he, Nat.shiftLeft_eq]
    exact (roundAway_intCast _).symm
  · next he =>
    obtain ⟨k, hk⟩ : ∃ k : Nat, (-e).toNat = k + 1 := ⟨(-e).toNat - 1, by omega⟩
    -- Half a unit is added on the significand before the places behind the point are dropped.
    have hhalf : (m : Rat) * 2 ^ e + 1 / 2 = ((m + 2 ^ k : Nat) : Rat) / (2 ^ (k + 1) : Nat) := by
      rw [ofNat_mul_zpow_of_neg m (not_le.1 he), hk]
      push_cast
      field_simp
      ring
    rw [roundAway_of_nonneg (by positivity), hhalf, Rat.floor_natCast_div_natCast, hk,
      Nat.shiftRight_eq_div_pow, Nat.one_shiftLeft, Nat.add_sub_cancel]
    exact Int.natCast_ediv _ _

/-- Signed magnitudes are rounded as the numbers that they make. -/
theorem signed_roundMagnitude (m : Nat) (e : Int) :
    v.signed (roundMagnitude m e) = roundAway ((v.signed m : Rat) * 2 ^ e) := by
  rw [signed, signed]
  split
  · rw [roundMagnitude_eq, ← roundAway_neg]
    push_cast
    rw [neg_mul]
  · exact roundMagnitude_eq m e

theorem roundScaled_eq (k : Int) : v.roundScaled k = roundAway (v.toRat * 2 ^ k) := by
  rw [roundScaled, signed_roundMagnitude, toRat, zpow_add₀ two_ne_zero, mul_assoc]

theorem natCast_mod_mul_zpow (m : Nat) (e : Int) :
    ((m % 1 <<< (-e).toNat : Nat) : Rat) * 2 ^ e = Int.fract ((m : Rat) * 2 ^ e) := by
  rw [Nat.one_shiftLeft]
  rcases lt_or_ge e 0 with he | he
  · rw [ofNat_mul_zpow_of_neg _ he, ofNat_mul_zpow_of_neg _ he,
      Int.fract_div_natCast_eq_div_natCast_mod]
  · -- No place of the significand lies behind the point.
    have hzero : (-e).toNat = 0 := by omega
    rw [ofNat_mul_zpow_of_nonneg _ he, ofNat_mul_zpow_of_nonneg _ he, Int.fract_natCast, hzero,
      pow_zero, Nat.mod_one, Nat.zero_mul, Nat.cast_zero]

/-- The fractional significand makes what truncation leaves. -/
theorem signed_fractionalSignificand :
    (v.signed v.fractionalSignificand : Rat) * 2 ^ v.exponent = v.toRat - truncate v.toRat := by
  have hmagnitude : ((v.fractionalSignificand : Nat) : Rat) * 2 ^ v.exponent =
      v.significand * 2 ^ v.exponent - truncate (v.significand * 2 ^ v.exponent) := by
    rw [truncate_of_nonneg (by positivity)]
    exact natCast_mod_mul_zpow v.significand v.exponent
  rw [toRat, signed, signed]
  split
  · push_cast
    rw [neg_mul, neg_mul, truncate_neg, hmagnitude]
    push_cast
    ring
  · exact hmagnitude

/-! ## The opposite number -/

/-- The number with the other sign bit. -/
def flipSign : Binary64 :=
  ⟨v.bits ^^^ 0x8000000000000000⟩

@[simp] theorem biasedExponent_flipSign : v.flipSign.biasedExponent = v.biasedExponent := by
  have hfields : v.flipSign.bits.toNat / 2 ^ 52 % 2 ^ 11 = v.bits.toNat / 2 ^ 52 % 2 ^ 11 := by
    rw [flipSign, UInt64.toNat_xor, Nat.xor_div_two_pow, Nat.xor_mod_two_pow]
    simp
  exact hfields

@[simp] theorem fractionBits_flipSign : v.flipSign.fractionBits = v.fractionBits := by
  have hfields : v.flipSign.bits.toNat % 2 ^ 52 = v.bits.toNat % 2 ^ 52 := by
    rw [flipSign, UInt64.toNat_xor, Nat.xor_mod_two_pow]
    simp
  exact hfields

@[simp] theorem isNegative_flipSign : v.flipSign.isNegative = !v.isNegative := by
  -- The sign is the last of 64 bits, so that one bit is left above the other fields.
  have htop : ∀ w : Binary64, w.isNegative = decide (w.bits.toNat / 2 ^ 63 = 1) := by
    intro w
    have hlt := w.bits.toNat_lt
    rw [isNegative, decide_eq_decide, hiddenBit]
    omega
  have hflip : v.flipSign.bits.toNat / 2 ^ 63 = (v.bits.toNat / 2 ^ 63) ^^^ 1 := by
    rw [flipSign, UInt64.toNat_xor, Nat.xor_div_two_pow]
    rfl
  have hlt : v.bits.toNat / 2 ^ 63 < 2 := by
    have hbits := v.bits.toNat_lt
    omega
  rw [htop, htop, hflip]
  interval_cases v.bits.toNat / 2 ^ 63 <;> rfl

theorem isFinite_flipSign_iff : v.flipSign.IsFinite ↔ v.IsFinite := by
  simp [IsFinite]

@[simp] theorem significand_flipSign : v.flipSign.significand = v.significand := by
  simp [significand]

@[simp] theorem exponent_flipSign : v.flipSign.exponent = v.exponent := by
  simp [exponent]

@[simp] theorem signed_flipSign (m : Nat) : v.flipSign.signed m = -v.signed m := by
  cases h : v.isNegative <;> simp [signed, h]

/-- Flipping the sign bit negates. -/
theorem toRat_flipSign : v.flipSign.toRat = -v.toRat := by
  simp [toRat]

/-! ## Dyadic fractions -/

section Dyadic

variable {i e : Int}

/-- The fields of a word of the form that `ofScaledInt` stores. -/
theorem fields_ofNat {negative : Bool} {biased fraction : Nat} (hb : biased < 2048)
    (hf : fraction < hiddenBit) {w : Binary64}
    (hw : w = ⟨UInt64.ofNat
      ((if negative then 0x8000000000000000 else 0) + biased * hiddenBit + fraction)⟩) :
    w.isNegative = negative ∧ w.biasedExponent = biased ∧ w.fractionBits = fraction := by
  have hbits : w.bits.toNat =
      (if negative then 0x8000000000000000 else 0) + biased * hiddenBit + fraction := by
    rw [hw, UInt64.toNat_ofNat']
    apply Nat.mod_eq_of_lt
    simp only [hiddenBit] at hf ⊢
    split <;> omega
  simp only [isNegative, biasedExponent, fractionBits, hbits, hiddenBit] at hf ⊢
  cases negative
  · simp only [Bool.false_eq_true, if_false, decide_eq_false_iff_not]
    omega
  · simp only [if_true, decide_eq_true_iff]
    omega

/-- The significand is shifted to its full length. -/
theorem shiftLeft_top {m : Nat} (hm : m ≠ 0) (hlt : m < 2 ^ 53) :
    m.log2 ≤ 52 ∧ hiddenBit ≤ m <<< (52 - m.log2) ∧ m <<< (52 - m.log2) < 2 * hiddenBit := by
  have htop : m.log2 < 53 := (Nat.log2_lt hm).2 hlt
  have hle : 2 ^ m.log2 ≤ m := Nat.log2_self_le hm
  have hupper : m < 2 ^ (m.log2 + 1) := Nat.lt_log2_self
  have hpow : 2 ^ m.log2 * 2 ^ (52 - m.log2) = hiddenBit := by
    rw [← pow_add, show m.log2 + (52 - m.log2) = 52 by omega]
    rfl
  have hpos : 0 < 2 ^ (52 - m.log2) := by positivity
  rw [Nat.shiftLeft_eq]
  refine ⟨by omega, ?_, ?_⟩
  · rw [← hpow]
    exact Nat.mul_le_mul_right _ hle
  · rw [← hpow, ← mul_assoc, ← pow_succ']
    exact Nat.mul_lt_mul_of_pos_right hupper hpos

theorem signed_mul (m k : Nat) : v.signed (m * k) = v.signed m * k := by
  rw [signed, signed]
  split <;> simp

/-- The sign bit of an integer and its magnitude make the integer. -/
theorem signed_natAbs (h : v.isNegative = decide (i < 0)) : v.signed i.natAbs = i := by
  rw [signed, h]
  by_cases hneg : i < 0
  · rw [decide_eq_true hneg, if_pos rfl]
    omega
  · rw [decide_eq_false hneg, if_neg Bool.false_ne_true]
    omega

section Stored

variable (hi : i.natAbs < 2 ^ 53) (hlow : -1022 ≤ e) (hhigh : e ≤ 971)
include hi hlow hhigh

/-- The shift lengthens the significand by as much as it lowers the exponent. -/
theorem fields_ofScaledInt (hne : i ≠ 0) :
    (ofScaledInt i e).IsFinite ∧ (ofScaledInt i e).isNegative = decide (i < 0) ∧
      (ofScaledInt i e).significand = i.natAbs * 2 ^ (52 - i.natAbs.log2) ∧
      ((52 - i.natAbs.log2 : Nat) : Int) + (ofScaledInt i e).exponent = e := by
  have hnat : i.natAbs ≠ 0 := Int.natAbs_ne_zero.2 hne
  obtain ⟨htop, hge, hlt⟩ := shiftLeft_top hnat hi
  set top := i.natAbs.log2
  set biased := ((top : Int) + e + 1023).toNat with hbiased
  have hword : ofScaledInt i e = ⟨UInt64.ofNat ((if decide (i < 0) = true then
      0x8000000000000000 else 0) + biased * hiddenBit + (i.natAbs <<< (52 - top) - hiddenBit))⟩ := by
    simp only [ofScaledInt, if_neg hnat, decide_eq_true_iff]
    rfl
  obtain ⟨hsign, hexponent, hfraction⟩ := fields_ofNat (by omega) (by omega) hword
  have hnormal : biased ≠ 0 := by omega
  refine ⟨?_, hsign, ?_, ?_⟩
  · rw [IsFinite, hexponent]
    omega
  · rw [significand, hexponent, if_neg hnormal, hfraction, ← Nat.shiftLeft_eq]
    omega
  · rw [exponent, hexponent, if_neg hnormal]
    omega

/-- Fractions with small numerators are stored exactly. -/
theorem isFinite_toRat_ofScaledInt :
    (ofScaledInt i e).IsFinite ∧ (ofScaledInt i e).toRat = i * 2 ^ e := by
  rcases eq_or_ne i 0 with rfl | hne
  · -- Zero has no leading bit and is stored as a word of its own.
    have hzero : ofScaledInt 0 e = ⟨0⟩ := rfl
    rw [hzero, Int.cast_zero, zero_mul]
    exact ⟨by decide, zero_mul _⟩
  · obtain ⟨hfinite, hsign, hsignificand, hexponent⟩ := fields_ofScaledInt hi hlow hhigh hne
    refine ⟨hfinite, ?_⟩
    calc
      (ofScaledInt i e).toRat =
          i * ((2 : Rat) ^ ((52 - i.natAbs.log2 : Nat) : Int) * 2 ^ (ofScaledInt i e).exponent) := by
        rw [toRat, hsignificand, signed_mul, signed_natAbs _ hsign, zpow_natCast]
        push_cast
        ring
      _ = i * 2 ^ e := by rw [← zpow_add₀ two_ne_zero, hexponent]

end Stored

end Dyadic

/-! ## Fractions of numbers -/

variable {v : Binary64}

theorem significand_lt (v : Binary64) : v.significand < 2 ^ 53 :=
  v.isCanonical.lt

theorem fractionalSignificand_le (v : Binary64) : v.fractionalSignificand ≤ v.significand :=
  Nat.mod_le _ _

/-- A number whose significand has places in front of the point is not small. -/
theorem neg_lt_exponent_of_fractionalSignificand_ne
    (h : v.fractionalSignificand ≠ v.significand) : -53 < v.exponent := by
  by_contra hsmall
  have hshift : 2 ^ 53 ≤ 1 <<< (-v.exponent).toNat := by
    rw [Nat.one_shiftLeft]
    exact Nat.pow_le_pow_right (by decide) (by omega)
  exact h (Nat.mod_eq_of_lt (v.significand_lt.trans_le hshift))

theorem exponent_le_of_isFinite (hv : v.IsFinite) : v.exponent ≤ 971 := by
  have hlt : v.biasedExponent < 2048 := Nat.mod_lt _ (by decide)
  rw [IsFinite] at hv
  rw [exponent]
  split <;> omega

/-- The fraction of a finite number is stored exactly. -/
theorem isFinite_toRat_fraction (hv : v.IsFinite) :
    v.fraction.IsFinite ∧ v.fraction.toRat = v.toRat - truncate v.toRat := by
  rw [← signed_fractionalSignificand, fraction, if_pos hv]
  by_cases hsmall : v.significand ≠ 0 ∧ v.fractionalSignificand = v.significand
  · rw [if_pos hsmall, hsmall.2]
    exact ⟨hv, rfl⟩
  · rw [if_neg hsmall]
    by_cases hzero : v.fractionalSignificand = 0
    · -- Nothing is left, and zero is stored whatever the exponent was.
      have hsigned : v.signed v.fractionalSignificand = 0 := by simp [signed, hzero]
      have hstored : ofScaledInt 0 v.exponent = ⟨0⟩ := rfl
      rw [hsigned, hstored, Int.cast_zero, zero_mul]
      exact ⟨by decide, zero_mul _⟩
    · have hne : v.fractionalSignificand ≠ v.significand := by
        intro heq
        exact hsmall ⟨heq ▸ hzero, heq⟩
      have hlow := neg_lt_exponent_of_fractionalSignificand_ne hne
      have hbound : (v.signed v.fractionalSignificand).natAbs < 2 ^ 53 := by
        have habs : (v.signed v.fractionalSignificand).natAbs = v.fractionalSignificand := by
          rw [signed]
          split <;> simp
        rw [habs]
        exact v.fractionalSignificand_le.trans_lt v.significand_lt
      exact isFinite_toRat_ofScaledInt hbound (by omega) (exponent_le_of_isFinite hv)

theorem toInt64Scaled_of_isFinite (hv : v.IsFinite) (k : Int) :
    v.toInt64Scaled k =
      max Int64.minValue.toInt (min Int64.maxValue.toInt (v.roundScaled k)) := by
  have hnan : ¬v.IsNaN := fun h => hv h.1
  rw [toInt64Scaled, if_neg hnan, if_pos hv]

end Binary64

end TorusFHE
