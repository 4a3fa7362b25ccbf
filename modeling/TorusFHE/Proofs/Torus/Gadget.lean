import Mathlib.Tactic.LinearCombination
import TorusFHE.Proofs.Torus.Vector
import TorusFHE.Torus.Gadget

/-!
# Digits and weights of a gadget

Cutting digits off a number loses nothing but a multiple of the next weight, and the weight behind
the last one is a whole turn.  Hence the digits of an angle, weighed by the fractions of a turn,
make up the rounded angle again.

* `Gadget.checkedBases_eq_ok`: every weight is a proper fraction of a turn;
* `Gadget.inner_decompose_bases`: digits and weights make up the rounded angle;
* `Gadget.abs_le_half_of_mem_digits`: no digit is beyond half the base;
* `Gadget.abs_centered_sub_round_le`: rounding moves an angle by at most half the last weight.
-/

namespace TorusFHE

namespace Gadget

variable (g : Gadget)

/-! ## Sizes -/

theorem base_eq : g.base = 2 ^ g.logBase :=
  Nat.one_shiftLeft _

theorem half_eq : g.half = 2 ^ (g.logBase - 1) :=
  Nat.one_shiftLeft _

theorem lastWeight_eq : g.lastWeight = 2 ^ g.roundingBits :=
  Nat.one_shiftLeft _

theorem base_eq_two_mul_half : g.base = 2 * g.half := by
  have hpos : g.logBase = g.logBase - 1 + 1 := by
    have := g.logBase_pos
    omega
  rw [base_eq, half_eq, hpos, pow_succ]
  simp [mul_comm]

theorem base_pos : 0 < g.base := by
  rw [base_eq]
  positivity

theorem half_pos : 0 < g.half := by
  rw [half_eq]
  exact Nat.two_pow_pos _

theorem lastWeight_pos : 0 < g.lastWeight := by
  rw [lastWeight_eq]
  positivity

/-- Half the last weight, which is nothing where nothing is rounded. -/
theorem lastWeight_div_two :
    ((g.lastWeight / 2 : Nat) : Int) =
      if g.roundingBits = 0 then 0 else 2 ^ (g.roundingBits - 1) := by
  rw [lastWeight_eq]
  cases g.roundingBits with
  | zero => rfl
  | succ r => simp [pow_succ]

/-- The weight in front of the first digit is a whole turn. -/
theorem lastWeight_mul_base_pow : g.lastWeight * g.base ^ g.levels = 2 ^ 32 := by
  rw [lastWeight_eq, base_eq, ← pow_mul, ← pow_add, roundingBits, Nat.sub_add_cancel g.bits_le]

/-! ## Digits -/

@[simp] theorem length_digitsFrom (count units : Nat) :
    (g.digitsFrom count units).length = count := by
  induction count generalizing units with
  | zero => rfl
  | succ count ih => simp [digitsFrom, ih]

@[simp] theorem length_digits (v : Torus) : (g.digits v).length = g.levels := by
  simp [digits]

@[simp] theorem length_decompose (v : Torus) : (g.decompose v).length = g.levels := by
  simp [decompose]

@[simp] theorem length_bases : g.bases.length = g.levels := by
  simp [bases]

@[simp] theorem length_powers (v : Torus) : (g.powers v).length = g.levels := by
  simp [powers]

/-- No weight of a gadget is refused. -/
theorem checkedBases_eq_ok : g.checkedBases = .ok g.bases := by
  apply mapM_eq_ok
  intro j hj
  have hlevel : j + 1 ≤ g.levels := List.mem_range.1 hj
  have hle : (j + 1) * g.logBase ≤ 32 :=
    calc
      (j + 1) * g.logBase ≤ g.levels * g.logBase := Nat.mul_le_mul_right _ hlevel
      _ = g.logBase * g.levels := Nat.mul_comm _ _
      _ ≤ 32 := g.bits_le
  exact if_pos ⟨Nat.mul_pos j.succ_pos g.logBase_pos, hle⟩

/-- The multiple of the weight behind level `j`. -/
theorem getElem?_powers (v : Torus) {j : Nat} (hj : j < g.levels) :
    (g.powers v)[j]? = some (v * 2 ^ (32 - (j + 1) * g.logBase)) := by
  simp [powers, bases, hj, Torus.fraction_eq]

theorem carry_le_one (limb rest : Nat) : g.carry limb rest ≤ 1 := by
  unfold carry
  split <;> decide

theorem carry_zero_left (rest : Nat) : g.carry 0 rest = 0 := by
  have hhalf : 0 < g.half := g.half_pos
  simp [carry, hhalf.ne]

/-- What is left after a digit is at most the weight behind the last one. -/
theorem rest_add_carry_le {count units : Nat} (h : units ≤ g.base ^ (count + 1)) :
    units / g.base + g.carry (units % g.base) (units / g.base) ≤ g.base ^ count := by
  have hdiv : units / g.base ≤ g.base ^ count := by
    rw [pow_succ] at h
    exact Nat.div_le_of_le_mul (by rwa [mul_comm])
  rcases h.eq_or_lt with rfl | h
  · have hlimb : g.base ^ (count + 1) % g.base = 0 := by simp [pow_succ]
    rw [hlimb, carry_zero_left]
    exact hdiv
  · have hlt : units / g.base < g.base ^ count := by
      rw [pow_succ] at h
      exact Nat.div_lt_of_lt_mul (by rwa [mul_comm])
    have hcarry : g.carry (units % g.base) (units / g.base) ≤ 1 := g.carry_le_one _ _
    omega

/-- A limb with its carry taken off is within half the base. -/
theorem abs_limb_sub_carry_le (limb rest : Nat) (h : limb < g.base) :
    |(limb : Int) - g.carry limb rest * g.base| ≤ g.half := by
  have hbase : g.base = 2 * g.half := g.base_eq_two_mul_half
  rw [abs_le]
  unfold carry
  split <;> push_cast <;> omega

theorem abs_le_half_of_mem_digitsFrom {count units : Nat} {x : Int}
    (h : x ∈ g.digitsFrom count units) : |x| ≤ g.half := by
  induction count generalizing units with
  | zero => simp [digitsFrom] at h
  | succ count ih =>
    rcases List.mem_cons.1 h with rfl | h
    · exact g.abs_limb_sub_carry_le _ _ (Nat.mod_lt _ g.base_pos)
    · exact ih h

/-- No digit is beyond half the base. -/
theorem abs_le_half_of_mem_digits {v : Torus} {x : Int} (h : x ∈ g.digits v) : |x| ≤ g.half :=
  g.abs_le_half_of_mem_digitsFrom (List.mem_reverse.1 h)

/-! ## Recomposition -/

theorem weights_succ (count : Nat) (w : Torus) :
    (List.range (count + 1)).map (fun t => w * (g.base : Torus) ^ t) =
      w :: (List.range count).map fun t => w * g.base * (g.base : Torus) ^ t := by
  simp [List.range_succ_eq_map, Function.comp_def, pow_succ', mul_assoc]

/-- Weighed from `w` on, the digits of a number make up the number of weights `w`, up to a multiple
of the weight behind the last digit. -/
theorem inner_digitsFrom (count units : Nat) (w : Torus) :
    ∃ q : Nat,
      TorusVec.inner ((g.digitsFrom count units).map Torus.ofInt)
          ((List.range count).map fun t => w * (g.base : Torus) ^ t)
        + w * q * (g.base : Torus) ^ count = w * units := by
  induction count generalizing units w with
  | zero => exact ⟨units, by simp [digitsFrom]⟩
  | succ count ih =>
    -- The first digit is the low limb with its carry taken off; the rest goes on with the carry.
    let limb := units % g.base
    let rest := units / g.base
    let up := g.carry limb rest
    rcases ih (rest + up) (w * g.base) with ⟨q, hq⟩
    have hunits : (units : Torus) = limb + g.base * rest := by
      exact_mod_cast congrArg (Nat.cast (R := Torus)) (Nat.mod_add_div units g.base).symm
    have hdigit : Torus.ofInt ((limb : Int) - up * g.base) = (limb : Torus) - up * g.base := by
      rw [← Torus.intCast_def]
      push_cast
      ring
    refine ⟨q, ?_⟩
    rw [weights_succ, digitsFrom, List.map_cons, TorusVec.inner_cons_cons, hdigit, hunits,
      pow_succ']
    push_cast at hq
    linear_combination hq

/-- The weights in ascending order. -/
theorem reverse_bases :
    g.bases.reverse = (List.range g.levels).map fun t => (g.lastWeight : Torus) * g.base ^ t := by
  apply List.ext_getElem
  · simp
  · intro t ht _
    have ht : t < g.levels := by simpa using ht
    -- Weight `t` from the end starts `t` digits above the rounding bits.
    have hexp : 32 - (g.levels - 1 - t + 1) * g.logBase = g.roundingBits + g.logBase * t := by
      have hbits : g.logBase * g.levels ≤ 32 := g.bits_le
      have hsplit : g.levels = t + (g.levels - 1 - t + 1) := by omega
      have hmul : g.logBase * g.levels =
          g.logBase * t + (g.levels - 1 - t + 1) * g.logBase := by
        conv_lhs => rw [hsplit]
        ring
      rw [roundingBits]
      omega
    have hfraction : Torus.fraction ((g.levels - 1 - t + 1) * g.logBase) =
        ((g.lastWeight * g.base ^ t : Nat) : Torus) := by
      rw [Torus.fraction, ← Torus.natCast_def, Nat.one_shiftLeft, hexp, pow_add, pow_mul,
        lastWeight_eq, base_eq]
    simpa [bases] using hfraction

/-- Digits and weights make up the rounded angle. -/
theorem inner_decompose_bases (v : Torus) :
    TorusVec.inner (g.decompose v) g.bases = g.round v := by
  rcases g.inner_digitsFrom g.levels (g.roundedUnits v) g.lastWeight with ⟨q, hq⟩
  -- The multiple that the digits leave over is one of whole turns.
  have hturn : (g.lastWeight : Torus) * (g.base : Torus) ^ g.levels = 0 := by
    have hcast := congrArg (Nat.cast (R := Torus)) g.lastWeight_mul_base_pow
    rw [Torus.natCast_turn] at hcast
    exact_mod_cast hcast
  have hround : g.round v = (g.lastWeight : Torus) * g.roundedUnits v := by
    rw [round, ← Torus.natCast_def]
    push_cast
    ring
  rw [decompose, digits, List.map_reverse, TorusVec.inner_reverse (by simp), reverse_bases, hround]
  linear_combination hq - q * hturn

/-! ## Rounding -/

/-- Rounding moves an angle by at most half the last weight. -/
theorem abs_centered_sub_round_le (v : Torus) :
    |(v - g.round v).centered| ≤ ((g.lastWeight / 2 : Nat) : Int) := by
  have hcast : v - g.round v = ((v.toNat - g.roundedUnits v * g.lastWeight : Int) : Torus) := by
    rw [round, ← Torus.natCast_def]
    push_cast
    rw [Torus.natCast_toNat]
  rw [hcast]
  refine (Torus.abs_centered_intCast_le _).trans ?_
  -- What is left is the remainder of a division, shifted by half the divisor.
  have hmod : g.roundedUnits v * g.lastWeight
      + (v.toNat + g.lastWeight / 2) % g.lastWeight = v.toNat + g.lastWeight / 2 :=
    Nat.div_add_mod' _ _
  have hlt : (v.toNat + g.lastWeight / 2) % g.lastWeight < g.lastWeight :=
    Nat.mod_lt _ g.lastWeight_pos
  have hmul : ((g.roundedUnits v * g.lastWeight : Nat) : Int) = g.roundedUnits v * g.lastWeight :=
    Nat.cast_mul _ _
  rw [← hmul, abs_le]
  omega

end Gadget

end TorusFHE
