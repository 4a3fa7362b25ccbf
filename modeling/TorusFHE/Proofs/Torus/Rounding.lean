import Mathlib.Algebra.BigOperators.Ring.Finset
import Mathlib.Data.Int.ModEq
import TorusFHE.Proofs.Torus.WordGadget

/-!
# Rounding and decomposition of an angle

Rounding takes an angle to the nearest multiple of the last weight, halves up, and a rounded angle
stays where it is.  The digits see the rounded angle only.  An angle within half a weight of the
whole turn is rounded to the turn, that is to zero, and its digits are those of zero.

* `Gadget.IsRounding`: what the rounded angle is, in terms of bits and of the centred difference;
* `Gadget.digits_round`: rounding first changes no digit;
* `Gadget.decompose_recomposes`: rounding and decomposition of every angle, on words too.
-/

namespace TorusFHE

namespace Gadget

variable (g : Gadget)

/-- The rounding bits of `w` are clear, and `w` is less than half a weight below or at most half a
weight above `v`. -/
structure IsRounding (v w : Torus) : Prop where
  multiple : 2 ^ g.roundingBits ∣ w.toNat
  exact_of_no_bits : g.roundingBits = 0 → (w - v).centered = 0
  nearest : 0 < g.roundingBits →
    -2 ^ (g.roundingBits - 1) < (w - v).centered ∧ (w - v).centered ≤ 2 ^ (g.roundingBits - 1)

/-- Signed digits, the most significant first, each times its weight in units of `2 ^ -32` turns. -/
def recompose (ds : List Int) : Int :=
  ∑ j ∈ Finset.range g.levels, ds.getD j 0 * 2 ^ (32 - (j + 1) * g.logBase)

/-! ## The rounded angle -/

theorem round_eq (v : Torus) : g.round v = (g.roundedUnits v * g.lastWeight : Nat) := rfl

/-- A rounded angle of a whole turn is none. -/
theorem toNat_round (v : Torus) :
    (g.round v).toNat = g.roundedUnits v % g.base ^ g.levels * g.lastWeight := by
  rw [round_eq, Torus.toNat_natCast, ← g.lastWeight_mul_base_pow, mul_comm g.lastWeight,
    Nat.mul_mod_mul_right]

/-- How far rounding moves an angle is what a division leaves over, shifted by half the divisor. -/
theorem round_sub (v : Torus) :
    g.round v - v =
      (((g.lastWeight / 2 : Nat) - ((v.toNat + g.lastWeight / 2) % g.lastWeight : Nat) : Int) :
        Torus) := by
  have hmod : g.roundedUnits v * g.lastWeight +
      (v.toNat + g.lastWeight / 2) % g.lastWeight = v.toNat + g.lastWeight / 2 :=
    Nat.div_add_mod' _ _
  have hcast := congrArg (Nat.cast (R := Torus)) hmod
  rw [Nat.cast_add, Nat.cast_add, Torus.natCast_toNat, ← round_eq] at hcast
  rw [Int.cast_sub, Int.cast_natCast, Int.cast_natCast]
  linear_combination hcast

theorem round_isRounding (v : Torus) : g.IsRounding v (g.round v) where
  multiple := by
    rw [toNat_round, ← lastWeight_eq]
    exact Nat.dvd_mul_left _ _
  exact_of_no_bits h := by
    have hweight : g.lastWeight = 1 := by rw [lastWeight_eq, h, pow_zero]
    simp [round_sub, hweight, Nat.mod_one]
  nearest h := by
    have hbits : g.roundingBits - 1 < 31 := by
      have hlt : g.roundingBits < 32 := g.roundingBits_lt
      omega
    have hhalf : 2 ^ (g.roundingBits - 1) < 2 ^ 31 := Nat.pow_lt_pow_right (by decide) hbits
    have hweight : g.lastWeight = 2 * 2 ^ (g.roundingBits - 1) := by
      rw [lastWeight_eq, ← pow_succ', Nat.sub_add_cancel h]
    have hmod : (v.toNat + g.lastWeight / 2) % g.lastWeight < g.lastWeight :=
      Nat.mod_lt _ g.lastWeight_pos
    -- The number of units is in range as it stands, so centring leaves it alone.
    rw [round_sub, Torus.centered_intCast, Int.bmod_eq_of_le (by omega) (by omega)]
    have hpow : ((2 ^ (g.roundingBits - 1) : Nat) : Int) = 2 ^ (g.roundingBits - 1) :=
      Nat.cast_pow 2 _
    omega

/-! ## Rounded angles -/

theorem roundedUnits_round (v : Torus) :
    g.roundedUnits (g.round v) = g.roundedUnits v % g.base ^ g.levels := by
  have hhalf : g.lastWeight / 2 < g.lastWeight :=
    Nat.div_lt_self g.lastWeight_pos (by decide)
  rw [roundedUnits, toNat_round, mul_comm, Nat.mul_add_div g.lastWeight_pos,
    Nat.div_eq_of_lt hhalf, add_zero]

/-- A rounded angle stays where it is. -/
theorem round_round (v : Torus) : g.round (g.round v) = g.round v := by
  apply Torus.toNat_injective
  rw [toNat_round, roundedUnits_round, Nat.mod_mod, ← toNat_round]

/-- The digits of the weight behind the last digit are those of zero. -/
theorem digitsFrom_base_pow (count : Nat) :
    g.digitsFrom count (g.base ^ count) = g.digitsFrom count 0 := by
  have hzero : ∀ rest, g.carry 0 rest = 0 := g.carry_zero_left
  induction count with
  | zero => rfl
  | succ count ih =>
    have hlimb : g.base ^ (count + 1) % g.base = 0 := by simp [pow_succ]
    have hrest : g.base ^ (count + 1) / g.base = g.base ^ count := by
      rw [pow_succ, Nat.mul_div_cancel _ g.base_pos]
    simp [digitsFrom, hlimb, hrest, hzero, ih]

/-- Rounding first changes no digit. -/
theorem digits_round (v : Torus) : g.digits (g.round v) = g.digits v := by
  rw [digits, digits, roundedUnits_round]
  rcases (g.roundedUnits_le v).lt_or_eq with h | h
  · rw [Nat.mod_eq_of_lt h]
  · rw [h, Nat.mod_self, digitsFrom_base_pow]

/-! ## Decomposition -/

/-- As signed numbers of units too, the digits are within half the base. -/
theorem abs_centered_le_of_mem_decompose {v x : Torus} (h : x ∈ g.decompose v) :
    |x.centered| ≤ 2 ^ (g.logBase - 1) := by
  rcases List.mem_map.1 h with ⟨d, hd, rfl⟩
  calc
    |(Torus.ofInt d).centered| ≤ |d| := Torus.abs_centered_intCast_le d
    _ ≤ g.half := g.abs_le_half_of_mem_digits hd
    _ = 2 ^ (g.logBase - 1) := by
      rw [half_eq]
      push_cast
      rfl

/-- Signed digits, weighed and added as integers, are the product with the weights. -/
theorem cast_recompose {ds : List Int} (h : ds.length = g.levels) :
    (g.recompose ds : Torus) = TorusVec.inner (ds.map Torus.ofInt) g.bases := by
  have hlen : (ds.map Torus.ofInt).length = g.bases.length := by simp [h]
  have hsum := TorusVec.inner_map_eq_sum_range id hlen
  rw [List.map_id, List.length_map, h] at hsum
  rw [hsum, recompose, Int.cast_sum]
  refine Finset.sum_congr rfl fun j hj => ?_
  have hlevel : j < g.levels := Finset.mem_range.1 hj
  have hdigit : (ds.map Torus.ofInt).getD j 0 = (ds.getD j 0 : Torus) := by
    simp [h, hlevel, Torus.intCast_def]
  have hweight : g.bases.getD j 0 = 2 ^ (32 - (j + 1) * g.logBase) := by
    simp [bases, hlevel, Torus.fraction_eq]
  rw [id, hdigit, hweight]
  push_cast
  rfl

/-- As signed numbers too, the digits make up the rounded angle, up to whole turns. -/
theorem recompose_decompose (v : Torus) :
    g.recompose ((g.decompose v).map Torus.centered) ≡ (g.round v).toNat [ZMOD 2 ^ 32] := by
  apply Torus.intCast_eq_intCast_iff.1
  have hcast : Torus.ofInt ∘ Torus.centered = id := funext Torus.intCast_centered
  rw [cast_recompose _ (by simp), List.map_map, hcast, List.map_id, inner_decompose_bases,
    Int.cast_natCast, Torus.natCast_toNat]

/-- Rounding and decomposition of every angle. -/
theorem decompose_recomposes (v : Torus) :
    (g.decompose v).length = g.levels ∧
    (∀ x ∈ g.decompose v,
      -2 ^ (g.logBase - 1) ≤ x.centered ∧ x.centered ≤ 2 ^ (g.logBase - 1)) ∧
    TorusVec.dot (g.decompose v) g.bases = .ok (g.round v) ∧
    (g.recompose ((g.decompose v).map Torus.centered) ≡ (g.round v).toNat [ZMOD 2 ^ 32]) ∧
    g.IsRounding v (g.round v) ∧
    g.round (g.round v) = g.round v ∧
    g.decompose (g.round v) = g.decompose v ∧
    g.wordRound? v = some (g.round v) ∧
    g.wordDecompose? v = some (g.decompose v) := by
  have hdot : TorusVec.dot (g.decompose v) g.bases = .ok (g.round v) :=
    TorusVec.dot_eq_ok_iff.2 ⟨by simp, (g.inner_decompose_bases v).symm⟩
  have hdecompose : g.decompose (g.round v) = g.decompose v := by
    rw [decompose, digits_round, ← decompose]
  exact ⟨g.length_decompose v,
    fun x hx => abs_le.1 (g.abs_centered_le_of_mem_decompose hx), hdot,
    g.recompose_decompose v, g.round_isRounding v, g.round_round v, hdecompose,
    g.wordRound?_eq v, g.wordDecompose?_eq v⟩

/-- Four digits to the base eight, of an angle that is rounded to the whole turn. -/
theorem decompose_recomposes_whole_turn :
    let g : Gadget := ⟨3, 4, by decide, by decide, by decide⟩
    let v : Torus := ⟨0xfff80000⟩
    0 ∈ g.decompose v ∧ (-2 ^ 2 ≤ (0 : Torus).centered ∧ (0 : Torus).centered ≤ 2 ^ 2) ∧
    g.round v = 0 ∧ g.IsRounding v 0 ∧ g.wordDecompose? v = some (g.decompose v) := by
  intro g v
  have hround : g.round v = 0 := by decide
  have hmem : 0 ∈ g.decompose v := by decide +kernel
  rcases g.decompose_recomposes v with ⟨-, hbound, -, -, hnearest, -, -, -, hwords⟩
  exact ⟨hmem, hbound 0 hmem, hround, hround ▸ hnearest, hwords⟩

end Gadget

end TorusFHE
