import TorusFHE.Proofs.Real.Rounding
import TorusFHE.Proofs.Torus.Ring
import TorusFHE.Torus.Real

/-!
# Angles of real numbers

A machine drops the integer part of a number before it scales the rest to units, so that nothing is
too large to be rounded.  This is rounding the number itself: truncation keeps the sign, and with it
the side that a half goes to, and what it drops are whole turns.  Hence opposite numbers have
opposite angles, and every angle is that of its centred number of turns.

* `Torus.ofReal_eq_ofTurns`: the angle of a finite number, in the steps of the machine;
* `Torus.ofTurns_eq`: the same angle, rounded at once;
* `Torus.ofReal_nearest`: rounding to the nearest unit modulo whole turns, negation and the way back.
-/

namespace TorusFHE

/-- What truncation drops can be rounded apart from the rest. -/
theorem roundAway_mul_natCast (q : Rat) (c : Nat) :
    roundAway (q * c) = roundAway ((q - truncate q) * c) + truncate q * c := by
  have hnonneg : ∀ p : Rat, 0 ≤ p →
      roundAway (p * c) = roundAway ((p - truncate p) * c) + truncate p * c := by
    intro p hp
    have hrest : 0 ≤ p - ⌊p⌋ := sub_nonneg.2 (Int.floor_le p)
    have hsum : p * c + 1 / 2 = (p - ⌊p⌋) * c + 1 / 2 + (⌊p⌋ * c : Int) := by
      push_cast
      ring
    rw [truncate_of_nonneg hp, roundAway_of_nonneg (by positivity),
      roundAway_of_nonneg (by positivity), hsum, Int.floor_add_intCast]
  rcases le_total 0 q with hq | hq
  · exact hnonneg q hq
  · -- Both sides change their sign with the number.
    have h := hnonneg (-q) (neg_nonneg.2 hq)
    have hrest : (-q - (-truncate q : Int)) * c = -((q - truncate q) * c) := by
      push_cast
      ring
    rw [truncate_neg, hrest, neg_mul, roundAway_neg, roundAway_neg, neg_mul] at h
    linarith

namespace Torus

/-! ## The steps of the machine -/

/-- The angle of `q` turns: what truncation leaves is scaled to units, rounded and kept to a signed
integer of 64 bits, whose lower half is the angle. -/
def ofTurns (q : Rat) : Torus :=
  ofInt (max Int64.minValue.toInt
    (min Int64.maxValue.toInt (roundAway ((q - truncate q) * 2 ^ 32))))

/-- Less than a turn fits into 64 bits. -/
theorem ofTurns_eq_ofInt (q : Rat) :
    ofTurns q = ofInt (roundAway ((q - truncate q) * 2 ^ 32)) := by
  have hbound : |(q - truncate q) * 2 ^ 32| ≤ 2 ^ 32 := by
    rw [abs_mul, abs_of_pos (by norm_num : (0 : Rat) < 2 ^ 32)]
    exact mul_le_of_le_one_left (by norm_num) (abs_sub_truncate_lt q).le
  have hnear := (isNearestAway_roundAway ((q - truncate q) * 2 ^ 32)).abs_sub_le
  set i := roundAway ((q - truncate q) * 2 ^ 32)
  rw [abs_le] at hbound hnear
  have hlow : -2 ^ 63 ≤ i := by
    have h : (-2 ^ 63 : Rat) ≤ i := by linarith
    exact_mod_cast h
  have hhigh : i ≤ 2 ^ 63 - 1 := by
    have h : (i : Rat) ≤ 2 ^ 63 - 1 := by linarith
    exact_mod_cast h
  have hleast : Int64.minValue.toInt = -2 ^ 63 := by decide
  have hgreatest : Int64.maxValue.toInt = 2 ^ 63 - 1 := by decide
  rw [ofTurns, hleast, hgreatest, min_eq_right hhigh, max_eq_right hlow]

/-- Rounding the number itself gives the same angle. -/
theorem ofTurns_eq (q : Rat) : ofTurns q = ofInt (roundAway (q * 2 ^ 32)) := by
  have hsplit : roundAway (q * 2 ^ 32) =
      roundAway ((q - truncate q) * 2 ^ 32) + truncate q * 2 ^ 32 := by
    exact_mod_cast roundAway_mul_natCast q (2 ^ 32)
  -- What truncation drops are whole turns.
  rw [ofTurns_eq_ofInt, hsplit, ← intCast_def, ← intCast_def, intCast_eq_intCast_iff]
  exact (Int.add_mul_emod_self_right _ _ _).symm

/-- A finite number is taken through these steps on its significand. -/
theorem ofReal_eq_ofTurns {v : Binary64} (hv : v.IsFinite) : ofReal v = ofTurns v.toRat := by
  obtain ⟨hfinite, hvalue⟩ := Binary64.isFinite_toRat_fraction hv
  have hscale : (2 : Rat) ^ (32 : Int) = 2 ^ 32 := by norm_cast
  rw [ofReal, Binary64.toInt64Scaled_of_isFinite hfinite, Binary64.roundScaled_eq, hvalue, hscale]
  rfl

/-- An infinity has a NaN as its fraction, and a NaN is converted to zero. -/
theorem ofReal_of_not_isFinite {v : Binary64} (hv : ¬v.IsFinite) : ofReal v = 0 := by
  rw [ofReal, Binary64.fraction, if_neg hv]
  rfl

/-! ## Negation and the way back -/

theorem ofReal_flipSign (v : Binary64) : ofReal v.flipSign = -ofReal v := by
  by_cases hv : v.IsFinite
  · rw [ofReal_eq_ofTurns hv, ofReal_eq_ofTurns (v.isFinite_flipSign_iff.2 hv), ofTurns_eq,
      ofTurns_eq, Binary64.toRat_flipSign, neg_mul, roundAway_neg, ← intCast_def, ← intCast_def,
      Int.cast_neg]
  · rw [ofReal_of_not_isFinite hv,
      ofReal_of_not_isFinite (mt v.isFinite_flipSign_iff.1 hv), neg_zero]

/-- The centred angle is stored exactly. -/
theorem isFinite_toRat_toReal (x : Torus) :
    x.toReal.IsFinite ∧ x.toReal.toRat = x.centered * 2 ^ (-32 : Int) := by
  have hlow := x.neg_le_centered
  have hhigh := x.centered_lt
  exact Binary64.isFinite_toRat_ofScaledInt (by omega) (by decide) (by decide)

theorem ofReal_toReal (x : Torus) : ofReal x.toReal = x := by
  obtain ⟨hfinite, hvalue⟩ := x.isFinite_toRat_toReal
  have hunits : x.toReal.toRat * 2 ^ 32 = x.centered := by
    rw [hvalue, mul_assoc]
    norm_num
  rw [ofReal_eq_ofTurns hfinite, ofTurns_eq, hunits, roundAway_intCast, ← intCast_def,
    intCast_centered]

/-! ## Conversion of all numbers -/

/-- A finite number of turns is rounded to the nearest unit, of two the one further from zero,
modulo whole turns; opposite numbers have opposite angles; every angle comes back from its centred
number of turns; and the angle of a number that is not finite is zero. -/
theorem ofReal_nearest :
    (∀ v : Binary64, v.IsFinite →
      (∃! i : Int, IsNearestAway (v.toRat * 2 ^ 32) i) ∧
        ∀ i : Int, IsNearestAway (v.toRat * 2 ^ 32) i → ofReal v = ofInt i) ∧
      (∀ v : Binary64, ofReal v.flipSign = -ofReal v) ∧
      (∀ x : Torus, ofReal x.toReal = x) ∧
      ∀ v : Binary64, ¬v.IsFinite → ofReal v = 0 := by
  refine ⟨fun v hv => ⟨?_, fun i hi => ?_⟩, ofReal_flipSign, ofReal_toReal,
    fun v => ofReal_of_not_isFinite⟩
  · exact ⟨roundAway (v.toRat * 2 ^ 32), isNearestAway_roundAway _, fun i => isNearestAway_iff.1⟩
  · rw [ofReal_eq_ofTurns hv, ofTurns_eq, isNearestAway_iff.1 hi]

/-- At `-2 ^ 19 - 1.5 * 2 ^ -32` turns, halfway between two units, and at a NaN. -/
theorem ofReal_nearest_negative_tie :
    IsNearestAway ((⟨0xc120000000000003⟩ : Binary64).toRat * 2 ^ 32) (-(2 ^ 51 + 2)) ∧
      ofReal ⟨0xc120000000000003⟩ = ⟨0xfffffffe⟩ ∧ ofReal ⟨0x7ff8000000000000⟩ = 0 := by
  have hvalue : (⟨0xc120000000000003⟩ : Binary64).toRat * 2 ^ 32 = -(2 ^ 51 + 3 / 2) := by
    decide +kernel
  have hnearest : IsNearestAway ((⟨0xc120000000000003⟩ : Binary64).toRat * 2 ^ 32)
      (-(2 ^ 51 + 2)) := by
    rw [hvalue]
    constructor <;> norm_num [abs_of_neg]
  exact ⟨hnearest, (ofReal_nearest.1 _ (by decide)).2 _ hnearest,
    ofReal_nearest.2.2.2 _ (by decide)⟩

end Torus

end TorusFHE
