import Mathlib
import TorusFHE.Real.Binary64

/-!
# Machine numbers and exact values

The machine number with the bits of a pattern has the sign, the exponent and the fraction of that
pattern; only what else a NaN carries is lost.  So the machine knows finite patterns from the others,
and compares finite ones as their exact values compare.

* `Binary64.unpack_toFloat`: the fields of a machine number are those of its pattern;
* `Binary64.compare_ofValue`: signs, significands and exponents are ordered as values are;
* `Binary64.isFinite_toFloat_iff`: which machine numbers are finite;
* `Binary64.toFloat_le_iff`: comparisons are those of exact values.
-/

namespace TorusFHE.Binary64

open Float.Model (UnpackedFloat Format)
open Float.Model.UnpackedFloat (Sign unpackMantissa unpackExponent unpackSign packComponents unpack
  pack unpackMantissa_packComponents unpackExponent_packComponents)

/-! ## Fields of words -/

section Words

variable (b : BitVec 64)

theorem toNat_unpackMantissa :
    (@unpackMantissa Format.binary64 b).toNat = b.toNat % 2 ^ 52 := by
  simp [unpackMantissa, BitVec.extractLsb, BitVec.extractLsb'_toNat]

theorem toNat_unpackExponent :
    (@unpackExponent Format.binary64 b).toNat = b.toNat / 2 ^ 52 % 2 ^ 11 := by
  simp [unpackExponent, BitVec.extractLsb, BitVec.extractLsb'_toNat, Nat.shiftRight_eq_div_pow]

theorem toNat_unpackSign :
    (@unpackSign Format.binary64 b).toNat = b.toNat / 2 ^ 63 := by
  have hbit : b.toNat / 2 ^ 63 < 2 := by
    have hb := b.isLt
    omega
  simpa [unpackSign, BitVec.extractLsb, BitVec.extractLsb'_toNat, Nat.shiftRight_eq_div_pow]
    using Nat.mod_eq_of_lt hbit

theorem ofBitVec_unpackSign (s : Sign) (e : BitVec 11) (m : BitVec 52) :
    Sign.ofBitVec (unpackSign (packComponents Format.binary64 s e m)) = s := by
  simp only [unpackSign, packComponents, BitVec.extractLsb]
  rw [BitVec.extractLsb'_append_eq_of_le (by decide),
    BitVec.extractLsb'_append_eq_of_le (by decide)]
  cases s <;> rfl

theorem toNat_one_append (m : BitVec 52) : (1#1 ++ m).toNat = hiddenBit + m.toNat := by
  rw [BitVec.toNat_append, ← Nat.shiftLeft_add_eq_or_of_lt m.isLt]
  rfl

end Words

/-! ## Unpacking -/

/-- The machine number with this sign, biased exponent and fraction, taken apart. -/
def ofFields (s : Sign) (e m : Nat) : UnpackedFloat :=
  if e = 2047 then if m = 0 then .infinity s else .notANumber
  else if e = 0 then if h : m = 0 then .zero s else .finite s m (-1074) (Nat.pos_of_ne_zero h)
  else .finite s (hiddenBit + m) (e - 1075) (Nat.add_pos_left (by decide) m)

theorem unpack_eq_ofFields (b : BitVec 64) :
    unpack Format.binary64 b =
      ofFields (Sign.ofBitVec (@unpackSign Format.binary64 b))
        (@unpackExponent Format.binary64 b).toNat
        (@unpackMantissa Format.binary64 b).toNat := by
  have hbias : (Format.binary64.exponentBias : Int) = 1023 := rfl
  have hones : ∀ e : BitVec 11, e = -1#11 ↔ e.toNat = 2047 := fun e => BitVec.toNat_inj.symm
  have hzero : ∀ e : BitVec 11, e = 0#11 ↔ e.toNat = 0 := fun e => BitVec.toNat_inj.symm
  have hfraction : ∀ m : BitVec 52, m = 0#52 ↔ m.toNat = 0 := fun m => BitVec.toNat_inj.symm
  rw [unpack, ofFields]
  simp only [hones, hzero, hfraction, hbias, toNat_one_append]
  split
  · rfl
  · split
    · next hsubnormal => simp [hsubnormal]
    · rfl

variable {s s' : Sign}

section Fields

variable {e m : Nat}

/-- Fields of anything but a NaN are packed into the word that has them. -/
theorem pack_ofFields (he : e < 2 ^ 11) (hm : m < 2 ^ 52) (h : e = 2047 → m = 0) :
    pack Format.binary64 (ofFields s e m) =
      packComponents Format.binary64 s (BitVec.ofNat 11 e) (BitVec.ofNat 52 m) := by
  have hbias : (Format.binary64.exponentBias : Int) = 1023 := rfl
  have hbits : Format.binary64.mantissaBits = 53 := rfl
  rw [ofFields]
  split
  · next hones =>
    obtain rfl := h hones
    subst hones
    rfl
  · split
    · next hzero =>
      subst hzero
      split
      · next hm0 =>
        subst hm0
        rfl
      · next hm0 =>
        have hlog : m.log2 < 52 := (Nat.log2_lt hm0).2 hm
        have hsubnormal : m.log2 + 1 ≠ 53 := by omega
        simp [pack, hbits, hbias, hsubnormal]
    · next hnormal =>
      -- The leading bit of the significand has no place in the fraction.
      have hlog : (hiddenBit + m).log2 = 52 := by
        rw [Nat.log2_eq_iff (by simp [hiddenBit]), hiddenBit]
        omega
      have hbiased : ((e : Int) - 1075 + 1023 + 52).toNat = e := by omega
      have hfinite : ¬2048 ≤ e + 1 := by omega
      have hfraction : BitVec.ofNat 52 (hiddenBit + m) = BitVec.ofNat 52 m := by
        apply BitVec.eq_of_toNat_eq
        rw [BitVec.toNat_ofNat, BitVec.toNat_ofNat]
        exact Nat.add_mod_left _ _
      simp [pack, hbits, hbias, hlog, hbiased, hfraction, hfinite]

/-- Fields survive being packed; only what else a NaN carries is lost. -/
theorem unpack_pack_ofFields (he : e < 2 ^ 11) (hm : m < 2 ^ 52) :
    unpack Format.binary64 (pack Format.binary64 (ofFields s e m)) = ofFields s e m := by
  by_cases hnan : e = 2047 ∧ m ≠ 0
  · have hfields : ofFields s e m = .notANumber := by simp [ofFields, hnan]
    rw [hfields]
    rfl
  · have hfraction : e = 2047 → m = 0 := by simpa using hnan
    rw [pack_ofFields he hm hfraction, unpack_eq_ofFields, ofBitVec_unpackSign,
      unpackExponent_packComponents, unpackMantissa_packComponents, BitVec.toNat_ofNat,
      BitVec.toNat_ofNat, Nat.mod_eq_of_lt he, Nat.mod_eq_of_lt hm]

end Fields

/-- The sign bit of a number. -/
def sign (v : Binary64) : Sign :=
  if v.isNegative then .negative else .positive

theorem ofBitVec_unpackSign_bits (v : Binary64) :
    Sign.ofBitVec (@unpackSign Format.binary64 v.bits.toBitVec) = v.sign := by
  have hlt := v.bits.toNat_lt
  have hbit : @unpackSign Format.binary64 v.bits.toBitVec = 0#1 ↔
      ¬2048 ≤ v.bits.toNat / hiddenBit := by
    rw [← BitVec.toNat_inj, toNat_unpackSign]
    change v.bits.toNat / 2 ^ 63 = 0 ↔ ¬2048 ≤ v.bits.toNat / 2 ^ 52
    omega
  rw [Sign.ofBitVec, sign, isNegative]
  by_cases h : 2048 ≤ v.bits.toNat / hiddenBit
  · rw [if_neg fun hzero => hbit.1 hzero h, decide_eq_true h, if_pos rfl]
  · rw [if_pos (hbit.2 h), decide_eq_false h, if_neg Bool.false_ne_true]

/-- The machine number of a pattern has the fields of that pattern. -/
theorem unpack_toFloat (v : Binary64) :
    v.toFloat.toModel.unpack = ofFields v.sign v.biasedExponent v.fractionBits := by
  have hword : unpack Format.binary64 v.bits.toBitVec =
      ofFields v.sign v.biasedExponent v.fractionBits := by
    rw [unpack_eq_ofFields, ofBitVec_unpackSign_bits, toNat_unpackExponent, toNat_unpackMantissa]
    rfl
  have he : v.biasedExponent < 2 ^ 11 := Nat.mod_lt _ (by decide)
  have hm : v.fractionBits < 2 ^ 52 := Nat.mod_lt _ (by decide)
  calc
    v.toFloat.toModel.unpack
        = unpack Format.binary64 (pack Format.binary64 (unpack Format.binary64 v.bits.toBitVec)) :=
      rfl
    _ = ofFields v.sign v.biasedExponent v.fractionBits := by
      rw [hword, unpack_pack_ofFields he hm]

/-! ## Order of values -/

/-- The finite machine number with this sign, significand and exponent, taken apart. -/
def ofValue (s : Sign) (m : Nat) (e : Int) : UnpackedFloat :=
  if h : m = 0 then .zero s else .finite s m e (Nat.pos_of_ne_zero h)

/-- Significands and exponents of finite numbers: the significand has all its bits unless the
exponent is the least one. -/
structure IsCanonical (m : Nat) (e : Int) : Prop where
  lt : m < 2 ^ 53
  le : -1074 ≤ e
  normal : -1074 < e → 2 ^ 52 ≤ m

section Order

variable {m m' : Nat} {e e' : Int}

/-- A greater exponent makes a greater magnitude. -/
theorem IsCanonical.mul_zpow_lt (h : IsCanonical m e) (h' : IsCanonical m' e') (he : e < e') :
    (m : Rat) * 2 ^ e < m' * 2 ^ e' := by
  have hm : (m : Rat) < 2 ^ 53 := by exact_mod_cast h.lt
  have hm' : (2 : Rat) ^ 52 ≤ m' := by exact_mod_cast h'.normal (h.le.trans_lt he)
  calc
    (m : Rat) * 2 ^ e < 2 ^ 53 * 2 ^ e := mul_lt_mul_of_pos_right hm (by positivity)
    _ = 2 ^ 52 * 2 ^ (e + 1) := by
      rw [zpow_add_one₀ two_ne_zero]
      ring
    _ ≤ 2 ^ 52 * 2 ^ e' :=
      mul_le_mul_of_nonneg_left (zpow_le_zpow_right₀ one_le_two he) (by positivity)
    _ ≤ m' * 2 ^ e' := mul_le_mul_of_nonneg_right hm' (by positivity)

/-- Magnitudes are ordered by their exponents, and by their significands where these agree. -/
theorem IsCanonical.compare_eq (h : IsCanonical m e) (h' : IsCanonical m' e') :
    (compare e e').then (compare m m') = compare ((m : Rat) * 2 ^ e) (m' * 2 ^ e') := by
  rcases lt_trichotomy e e' with he | rfl | he
  · rw [compare_lt_iff_lt.2 he, compare_lt_iff_lt.2 (h.mul_zpow_lt h' he)]
    rfl
  · have hpow : (0 : Rat) < 2 ^ e := by positivity
    rw [compare_eq_iff_eq.2 rfl, Ordering.eq_then]
    rcases lt_trichotomy m m' with hm | rfl | hm
    · have hlt : (m : Rat) * 2 ^ e < m' * 2 ^ e :=
        mul_lt_mul_of_pos_right (by exact_mod_cast hm) hpow
      rw [compare_lt_iff_lt.2 hm, compare_lt_iff_lt.2 hlt]
    · rw [compare_eq_iff_eq.2 rfl, compare_eq_iff_eq.2 rfl]
    · have hlt : (m' : Rat) * 2 ^ e < m * 2 ^ e :=
        mul_lt_mul_of_pos_right (by exact_mod_cast hm) hpow
      rw [compare_gt_iff_gt.2 hm, compare_gt_iff_gt.2 hlt]
  · rw [compare_gt_iff_gt.2 he, compare_gt_iff_gt.2 (h'.mul_zpow_lt h he)]
    rfl

theorem swap_compare_neg (x y : Rat) : (compare x y).swap = compare (-x) (-y) := by
  rcases lt_trichotomy x y with h | rfl | h
  · rw [compare_lt_iff_lt.2 h, compare_gt_iff_gt.2 (neg_lt_neg h)]
    rfl
  · rw [compare_eq_iff_eq.2 rfl, compare_eq_iff_eq.2 rfl]
    rfl
  · rw [compare_gt_iff_gt.2 h, compare_lt_iff_lt.2 (neg_lt_neg h)]
    rfl

/-- Signs, significands and exponents are ordered as the values that they make. -/
theorem compare_ofValue (h : IsCanonical m e) (h' : IsCanonical m' e') :
    (ofValue s m e).compare (ofValue s' m' e') =
      some (compare ((s.apply m : Rat) * 2 ^ e) (s'.apply m' * 2 ^ e')) := by
  have hzero : ∀ s : Sign, s.apply 0 = 0 := fun s => by cases s <;> rfl
  by_cases hm : m = 0
  · subst hm
    rw [ofValue, dif_pos rfl, Nat.cast_zero, hzero, Int.cast_zero, zero_mul, ofValue]
    by_cases hm' : m' = 0
    · subst hm'
      simp [hzero, UnpackedFloat.compare]
    · have hpos' : (0 : Rat) < m' * 2 ^ e' := by positivity
      rw [dif_neg hm']
      cases s' with
      | negative =>
        simp [UnpackedFloat.compare, Sign.apply, compare_gt_iff_gt.2 (neg_lt_zero.2 hpos')]
      | positive => simp [UnpackedFloat.compare, Sign.apply, compare_lt_iff_lt.2 hpos']
  · have hpos : (0 : Rat) < m * 2 ^ e := by positivity
    rw [ofValue, dif_neg hm]
    by_cases hm' : m' = 0
    · subst hm'
      rw [ofValue, dif_pos rfl, Nat.cast_zero, hzero, Int.cast_zero, zero_mul]
      cases s with
      | negative =>
        simp [UnpackedFloat.compare, Sign.apply, compare_lt_iff_lt.2 (neg_lt_zero.2 hpos)]
      | positive => simp [UnpackedFloat.compare, Sign.apply, compare_gt_iff_gt.2 hpos]
    · have hpos' : (0 : Rat) < m' * 2 ^ e' := by positivity
      rw [ofValue, dif_neg hm']
      -- Negative numbers lie below positive ones; otherwise the magnitudes decide.
      cases s <;> cases s'
      · simp [UnpackedFloat.compare, Sign.apply, h.compare_eq h', swap_compare_neg]
      · have hlt := (neg_lt_zero.2 hpos).trans hpos'
        simp [UnpackedFloat.compare, Sign.apply, compare_lt_iff_lt.2 hlt]
      · have hlt := (neg_lt_zero.2 hpos').trans hpos
        simp [UnpackedFloat.compare, Sign.apply, compare_gt_iff_gt.2 hlt]
      · simp [UnpackedFloat.compare, Sign.apply, h.compare_eq h']

end Order

/-! ## Comparisons of machine numbers -/

variable {v w : Binary64}

theorem isCanonical (v : Binary64) : IsCanonical v.significand v.exponent := by
  have hfraction : v.fractionBits < 2 ^ 52 := Nat.mod_lt _ (by decide)
  have hhidden : hiddenBit = 2 ^ 52 := rfl
  rw [significand, exponent, hhidden]
  constructor <;> split <;> omega

theorem toRat_eq (v : Binary64) : v.toRat = (v.sign.apply v.significand : Rat) * 2 ^ v.exponent := by
  rw [toRat, signed, sign]
  split <;> rfl

/-- A finite machine number has the sign, the significand and the exponent of its pattern. -/
theorem unpack_toFloat_of_isFinite (hv : v.IsFinite) :
    v.toFloat.toModel.unpack = ofValue v.sign v.significand v.exponent := by
  rw [unpack_toFloat, ofFields, if_neg hv, ofValue, significand, exponent]
  by_cases he : v.biasedExponent = 0
  · simp only [he, if_true]
  · have hne : hiddenBit + v.fractionBits ≠ 0 := by simp [hiddenBit]
    simp only [he, if_false, dif_neg hne]

/-- The machine knows the finite numbers. -/
theorem isFinite_toFloat_iff : v.toFloat.isFinite = true ↔ v.IsFinite := by
  have hmodel : v.toFloat.isFinite = v.toFloat.toModel.unpack.isFinite := rfl
  rw [hmodel]
  by_cases hv : v.IsFinite
  · rw [unpack_toFloat_of_isFinite hv, ofValue]
    split <;> simp [UnpackedFloat.isFinite, hv]
  · rw [unpack_toFloat, ofFields, if_pos (not_not.1 hv)]
    split <;> simp [UnpackedFloat.isFinite, hv]

section Finite

variable (hv : v.IsFinite) (hw : w.IsFinite)
include hv hw

theorem compare_toFloat :
    v.toFloat.toModel.unpack.compare w.toFloat.toModel.unpack =
      some (compare v.toRat w.toRat) := by
  rw [unpack_toFloat_of_isFinite hv, unpack_toFloat_of_isFinite hw, toRat_eq, toRat_eq]
  exact compare_ofValue v.isCanonical w.isCanonical

/-- Finite machine numbers are ordered as their exact values. -/
theorem toFloat_le_iff : v.toFloat ≤ w.toFloat ↔ v.toRat ≤ w.toRat := by
  have hmodel : v.toFloat ≤ w.toFloat ↔
      (v.toFloat.toModel.unpack.compare w.toFloat.toModel.unpack).any (·.isLE) = true := by
    change v.toFloat.le w.toFloat = true ↔ _
    rw [Float.le, decide_eq_true_iff]
    rfl
  rw [hmodel, compare_toFloat hv hw, Option.any_some, ← compare_le_iff_le, Ordering.isLE_iff_ne_gt]

end Finite

end TorusFHE.Binary64
