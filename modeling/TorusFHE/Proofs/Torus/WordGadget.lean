import Mathlib.Tactic.Ring
import TorusFHE.Proofs.Torus.Gadget
import TorusFHE.Torus.WordGadget

/-!
# Words do for gadget decomposition

A rounded angle is at most a whole turn, and so is what is left of it after each digit.  Words of 64
bits therefore hold every number that rounding and decomposition meet, no checked operation fails,
and the results are those of `Gadget.round` and `Gadget.decompose`.

* `Gadget.roundedUnits_le`: a rounded angle is at most a whole turn;
* `Gadget.carry_eq_bits`: the carry of a limb, read off its bits;
* `Gadget.wordRound?_eq` and `Gadget.wordDecompose?_eq`: both algorithms on words.
-/

namespace TorusFHE

/-! ## Checked operations -/

namespace Word64

variable {a b k n : Nat}

theorem ofNat?_of_lt (h : n < 2 ^ 64) : ofNat? n = some (.ofNat n) :=
  if_pos h

theorem toNat_ofNat_of_lt (h : n < 2 ^ 64) : (UInt64.ofNat n).toNat = n :=
  UInt64.toNat_ofNat_of_lt' h

theorem add?_ofNat (h : a + b < 2 ^ 64) :
    add? (.ofNat a) (.ofNat b) = some (.ofNat (a + b)) := by
  have ha : a < 2 ^ 64 := (Nat.le_add_right a b).trans_lt h
  have hb : b < 2 ^ 64 := (Nat.le_add_left b a).trans_lt h
  rw [add?, toNat_ofNat_of_lt ha, toNat_ofNat_of_lt hb, ofNat?_of_lt h]

theorem sub?_ofNat (hle : b ≤ a) (h : a < 2 ^ 64) :
    sub? (.ofNat a) (.ofNat b) = some (.ofNat (a - b)) := by
  have hb : b < 2 ^ 64 := hle.trans_lt h
  have hword : UInt64.ofNat b ≤ UInt64.ofNat a := by
    rwa [UInt64.le_iff_toNat_le, toNat_ofNat_of_lt hb, toNat_ofNat_of_lt h]
  rw [sub?, if_pos hword, toNat_ofNat_of_lt h, toNat_ofNat_of_lt hb,
    ofNat?_of_lt ((Nat.sub_le a b).trans_lt h)]

theorem shiftLeft?_ofNat (hk : k < 64) (h : a * 2 ^ k < 2 ^ 64) :
    shiftLeft? (.ofNat a) k = some (.ofNat (a * 2 ^ k)) := by
  have ha : a < 2 ^ 64 := (Nat.le_mul_of_pos_right a (Nat.two_pow_pos k)).trans_lt h
  rw [shiftLeft?, if_pos hk, toNat_ofNat_of_lt ha, Nat.shiftLeft_eq, ofNat?_of_lt h]

theorem shiftRight?_ofNat (hk : k < 64) (h : a < 2 ^ 64) :
    shiftRight? (.ofNat a) k = some (.ofNat (a / 2 ^ k)) := by
  rw [shiftRight?, if_pos hk, toNat_ofNat_of_lt h, Nat.shiftRight_eq_div_pow,
    ofNat?_of_lt ((Nat.div_le_self a _).trans_lt h)]

/-- A mask of low bits takes the remainder. -/
theorem ofNat_and_mask (n k : Nat) :
    UInt64.ofNat n &&& .ofNat (2 ^ k - 1) = .ofNat (n % 2 ^ k) := by
  rw [← UInt64.ofNat_and, Nat.and_two_pow_sub_one_eq_mod]

/-- A number short of `2 ^ (b + 1)` has bit `b` exactly from `2 ^ b` on. -/
theorem testBit_top (h : n < 2 ^ (b + 1)) : n.testBit b = decide (2 ^ b ≤ n) := by
  have hlt : n / 2 ^ b < 2 := Nat.div_lt_of_lt_mul (by rwa [← pow_succ])
  have hpos : 0 < n / 2 ^ b ↔ 2 ^ b ≤ n := by simp [Nat.div_pos_iff]
  rw [Nat.testBit_eq_decide_div_mod_eq, Nat.mod_eq_of_lt hlt, decide_eq_decide, ← hpos]
  omega

end Word64

/-- The low half of the word of a number is its angle. -/
theorem Torus.mk_toUInt32_ofNat (n : Nat) : Torus.mk (UInt64.ofNat n).toUInt32 = (n : Torus) := by
  apply Torus.toNat_injective
  have hlow : (Torus.mk (UInt64.ofNat n).toUInt32).toNat = n % 2 ^ 64 % 2 ^ 32 := rfl
  rw [hlow, Torus.toNat_natCast]
  omega

namespace Gadget

open Word64

variable (g : Gadget)

/-! ## Sizes -/

theorem logBase_le : g.logBase ≤ 32 :=
  (Nat.le_mul_of_pos_right _ g.levels_pos).trans g.bits_le

theorem roundingBits_lt : g.roundingBits < 32 := by
  have hbits : 0 < g.logBase * g.levels := Nat.mul_pos g.logBase_pos g.levels_pos
  rw [roundingBits]
  omega

/-- A rounded angle is at most a whole turn. -/
theorem roundedUnits_le (v : Torus) : g.roundedUnits v ≤ g.base ^ g.levels := by
  have hturn : g.lastWeight * g.base ^ g.levels = 2 ^ 32 := g.lastWeight_mul_base_pow
  have hpos : 0 < g.lastWeight := g.lastWeight_pos
  have hv : v.toNat < 2 ^ 32 := v.toNat_lt
  rw [roundedUnits, ← Nat.lt_succ_iff, Nat.div_lt_iff_lt_mul hpos, Nat.succ_mul, mul_comm, hturn]
  omega

theorem base_pow_levels_le : g.base ^ g.levels ≤ 2 ^ 32 := by
  rw [← g.lastWeight_mul_base_pow]
  exact Nat.le_mul_of_pos_left _ g.lastWeight_pos

theorem base_le : g.base ≤ 2 ^ 32 := by
  rw [base_eq]
  exact Nat.pow_le_pow_right (by decide) g.logBase_le

/-! ## Rounding -/

/-- Half a weight more reaches the next weight exactly if the highest bit below it is set. -/
theorem add_half_div_two_pow (v r : Nat) :
    (v + 2 ^ r) / 2 ^ (r + 1) = v / 2 ^ (r + 1) + v / 2 ^ r % 2 := by
  have hhalves : ∀ n, n / 2 ^ (r + 1) = n / 2 ^ r / 2 := fun n => by
    rw [pow_succ, Nat.div_div_eq_div_mul]
  rw [hhalves, hhalves, Nat.add_div_right _ (Nat.two_pow_pos r)]
  omega

theorem wordUnits?_eq (v : Torus) : g.wordUnits? v = some (.ofNat (g.roundedUnits v)) := by
  have hv : v.toNat < 2 ^ 32 := v.toNat_lt
  have hword : v.word.toUInt64 = .ofNat v.toNat := by
    apply UInt64.toNat_inj.1
    rw [toNat_ofNat_of_lt (by omega), UInt32.toNat_toUInt64]
    rfl
  rw [wordUnits?, hword, roundedUnits, lastWeight_eq]
  have hbits : g.roundingBits < 32 := g.roundingBits_lt
  cases hr : g.roundingBits with
  | zero => simp
  | succ r =>
    rw [hr] at hbits
    have hand : UInt64.ofNat (v.toNat / 2 ^ r) &&& 1 = .ofNat (v.toNat / 2 ^ r % 2) :=
      ofNat_and_mask (v.toNat / 2 ^ r) 1
    have hkept : v.toNat / 2 ^ (r + 1) ≤ v.toNat := Nat.div_le_self _ _
    have hhalf : 2 ^ (r + 1) / 2 = 2 ^ r := by simp [pow_succ]
    have hsum : v.toNat / 2 ^ (r + 1) + v.toNat / 2 ^ r % 2 < 2 ^ 64 := by omega
    simp only [Nat.add_eq_zero_iff, one_ne_zero, and_false, if_false, Nat.add_sub_cancel]
    rw [shiftRight?_ofNat (by omega) (by omega), shiftRight?_ofNat (by omega) (by omega), hhalf,
      add_half_div_two_pow, ← add?_ofNat hsum, ← hand]
    rfl

theorem wordRound?_eq (v : Torus) : g.wordRound? v = some (g.round v) := by
  have hbits : g.roundingBits < 32 := g.roundingBits_lt
  have hsize : g.roundedUnits v * 2 ^ g.roundingBits < 2 ^ 64 :=
    calc
      g.roundedUnits v * 2 ^ g.roundingBits ≤ g.base ^ g.levels * 2 ^ g.roundingBits :=
        Nat.mul_le_mul_right _ (g.roundedUnits_le v)
      _ = 2 ^ 32 := by rw [← lastWeight_eq, mul_comm, g.lastWeight_mul_base_pow]
      _ < 2 ^ 64 := by decide
  rw [wordRound?, wordUnits?_eq, round, lastWeight_eq, ← Torus.natCast_def,
    ← Torus.mk_toUInt32_ofNat]
  simp [shiftLeft?_ofNat (by omega : g.roundingBits < 64) hsize]

/-! ## Digits -/

/-- The carry of a limb is its top bit, unless the limb is half the base and the next position below
half. -/
theorem carry_eq_bits {limb rest : Nat} (hlimb : limb < g.base) (hrest : rest < 2 ^ 64) :
    ((UInt64.ofNat limb - 1 ||| .ofNat rest) &&& .ofNat limb).toNat / 2 ^ (g.logBase - 1) =
      g.carry limb rest := by
  have hpow : g.base = 2 ^ (g.logBase - 1 + 1) := by
    rw [base_eq, Nat.sub_add_cancel g.logBase_pos]
  have hhalf : 0 < g.half := g.half_pos
  have hword : limb < 2 ^ 64 := hlimb.trans_le (g.base_le.trans (by decide))
  -- The masked word is no longer than the limb, so its top bit is all that the shift leaves.
  have hbits : ((UInt64.ofNat limb - 1 ||| .ofNat rest) &&& .ofNat limb).toNat =
      ((UInt64.ofNat limb - 1).toNat ||| rest) &&& limb := by
    rw [UInt64.toNat_and, UInt64.toNat_or, toNat_ofNat_of_lt hword, toNat_ofNat_of_lt hrest]
  have hshort : ((UInt64.ofNat limb - 1).toNat ||| rest) &&& limb < 2 ^ (g.logBase - 1 + 1) :=
    Nat.and_le_right.trans_lt (hpow ▸ hlimb)
  have htop : (((UInt64.ofNat limb - 1).toNat ||| rest) &&& limb) / 2 ^ (g.logBase - 1) =
      ((((UInt64.ofNat limb - 1).toNat ||| rest) &&& limb).testBit (g.logBase - 1)).toNat := by
    rw [Nat.toNat_testBit, Nat.mod_eq_of_lt (Nat.div_lt_of_lt_mul (by rwa [← pow_succ]))]
  have hrestbit : rest.testBit (g.logBase - 1) = decide (g.half ≤ rest % g.base) := by
    rw [half_eq, hpow, ← testBit_top (Nat.mod_lt _ (Nat.two_pow_pos _)), Nat.testBit_mod_two_pow]
    simp
  have hlimbbit : limb.testBit (g.logBase - 1) = decide (g.half ≤ limb) := by
    rw [half_eq, testBit_top (hpow ▸ hlimb)]
  rw [hbits, htop, Nat.testBit_and, Nat.testBit_or, hrestbit, hlimbbit, carry]
  cases limb with
  | zero => simp [hhalf.not_ge, hhalf.ne]
  | succ n =>
    have hpred : UInt64.ofNat (n + 1) - 1 = .ofNat n := by
      simp [UInt64.ofNat_add]
    rw [hpred, toNat_ofNat_of_lt (by omega), testBit_top (by omega), ← half_eq]
    -- The limb is above half, half, or below half the base.
    rcases lt_trichotomy g.half (n + 1) with h | h | h
    · simp [h, h.le, Nat.le_of_lt_succ h]
    · by_cases hnext : n < rest % g.base <;> simp [h, hnext]
    · simp [h.ne, h.not_ge, h.le.not_gt]

/-- A limb less its carry, both as words, is the digit. -/
theorem mk_toUInt32_limb_sub (limb borrowed : Nat) :
    Torus.mk (UInt64.ofNat limb - .ofNat borrowed).toUInt32 =
      Torus.ofInt ((limb : Int) - borrowed) := by
  have hsub : Torus.mk (UInt64.ofNat limb - .ofNat borrowed).toUInt32 =
      Torus.mk (UInt64.ofNat limb).toUInt32 - Torus.mk (UInt64.ofNat borrowed).toUInt32 := by
    rw [UInt64.toUInt32_sub]
    rfl
  rw [hsub, Torus.mk_toUInt32_ofNat, Torus.mk_toUInt32_ofNat, ← Torus.intCast_def]
  push_cast
  rfl

/-- The digits of a number, cut off on words. -/
theorem exists_wordDigits? {count units : Nat} (hcount : g.base ^ count ≤ 2 ^ 32)
    (h : units ≤ g.base ^ count) :
    ∃ words, g.wordDigits? (.ofNat (2 ^ g.logBase - 1)) count (.ofNat units) = some words ∧
      words.map (fun digit => Torus.mk digit.toUInt32) =
        (g.digitsFrom count units).map Torus.ofInt := by
  induction count generalizing units with
  | zero => exact ⟨[], rfl, rfl⟩
  | succ count ih =>
    let limb := units % g.base
    let rest := units / g.base
    let up := g.carry limb rest
    have hbits : g.logBase ≤ 32 := g.logBase_le
    have hbase : g.base ≤ 2 ^ 32 := g.base_le
    have hpow : g.base ^ count ≤ 2 ^ 32 :=
      (Nat.pow_le_pow_right g.base_pos (Nat.le_succ count)).trans hcount
    have hrest : rest + up ≤ g.base ^ count := g.rest_add_carry_le h
    have hup : up ≤ 1 := g.carry_le_one _ _
    have hborrowed : up * 2 ^ g.logBase < 2 ^ 64 := by
      have hmul : up * g.base ≤ 1 * g.base := Nat.mul_le_mul_right _ hup
      rw [← base_eq]
      omega
    -- Each checked operation has the exact result.
    have hlimb : UInt64.ofNat units &&& .ofNat (2 ^ g.logBase - 1) = .ofNat limb := by
      rw [ofNat_and_mask, ← base_eq]
    have hdown : shiftRight? (.ofNat units) g.logBase = some (.ofNat rest) := by
      rw [shiftRight?_ofNat (by omega) (by omega), ← base_eq]
    have hcarry : shiftRight? ((UInt64.ofNat limb - 1 ||| .ofNat rest) &&& .ofNat limb)
        (g.logBase - 1) = some (.ofNat up) := by
      have hlt : limb < g.base := Nat.mod_lt _ g.base_pos
      have hbits : ((UInt64.ofNat limb - 1 ||| .ofNat rest) &&& .ofNat limb).toNat /
          2 ^ (g.logBase - 1) = up := g.carry_eq_bits hlt (by omega)
      rw [shiftRight?, if_pos (by omega), Nat.shiftRight_eq_div_pow, hbits, ofNat?_of_lt (by omega)]
    have hnext : add? (.ofNat rest) (.ofNat up) = some (.ofNat (rest + up)) :=
      add?_ofNat (by omega)
    have hshift : shiftLeft? (.ofNat up) g.logBase = some (.ofNat (up * g.base)) := by
      rw [shiftLeft?_ofNat (by omega) hborrowed, ← base_eq]
    rcases ih hpow hrest with ⟨words, hwords, hdigits⟩
    refine ⟨(.ofNat limb - .ofNat (up * g.base)) :: words, ?_, ?_⟩
    · simp only [wordDigits?, hlimb, hdown, hcarry, hnext, hshift, hwords, Option.bind_eq_bind,
        Option.bind_some, Option.pure_def]
    · rw [List.map_cons, hdigits, mk_toUInt32_limb_sub, digitsFrom, List.map_cons]
      push_cast
      rfl

theorem wordDecompose?_eq (v : Torus) : g.wordDecompose? v = some (g.decompose v) := by
  have hbits : g.logBase ≤ 32 := g.logBase_le
  have hbase : g.base ≤ 2 ^ 32 := g.base_le
  have hshift : shiftLeft? 1 g.logBase = some (.ofNat (2 ^ g.logBase)) := by
    have h := shiftLeft?_ofNat (a := 1) (k := g.logBase) (by omega) (by rw [← base_eq]; omega)
    rwa [one_mul] at h
  have hmask : sub? (.ofNat (2 ^ g.logBase)) 1 = some (.ofNat (2 ^ g.logBase - 1)) :=
    sub?_ofNat (b := 1) Nat.one_le_two_pow (by rw [← base_eq]; omega)
  rcases g.exists_wordDigits? g.base_pow_levels_le (g.roundedUnits_le v) with
    ⟨words, hwords, hdigits⟩
  simp only [wordDecompose?, hshift, hmask, wordUnits?_eq, hwords, Option.bind_eq_bind,
    Option.bind_some, Option.pure_def, List.map_reverse, hdigits, decompose, digits]

end Gadget

end TorusFHE
