import Mathlib.Algebra.Order.Ring.Abs
import Mathlib.Tactic.Linarith
import Mathlib.Tactic.Ring
import TorusFHE.Torus.Basic

/-!
# The torus as a commutative ring

The operations of `Torus` are those of the integers modulo `2 ^ 32`.  With the casts `Torus.ofNat`
and `Torus.ofInt` they make up a commutative ring.

* `Torus.natCast_toNat` and `Torus.intCast_centered`: an element is the cast of its least and of its
  centred number of units;
* `Torus.abs_centered_intCast_le`: no number of units of an element is smaller than the centred one,
  so that its size is subadditive;
* `Torus.upperHalf_iff`: the second half of the turn is where the centred number is negative.
-/

namespace TorusFHE

namespace Torus

/-! ## Ring structure -/

instance : NatCast Torus := ⟨ofNat⟩

instance : IntCast Torus := ⟨ofInt⟩

theorem natCast_def (n : Nat) : (n : Torus) = ofNat n := rfl

theorem intCast_def (i : Int) : (i : Torus) = ofInt i := rfl

theorem ofInt_natCast (n : Nat) : ofInt (n : Int) = ofNat n := by
  have hmod : ((n : Int) % 2 ^ 32).toNat = n % UInt32.size := by
    rw [show UInt32.size = 2 ^ 32 from rfl]
    omega
  apply Torus.ext
  change UInt32.ofNat ((n : Int) % 2 ^ 32).toNat = UInt32.ofNat n
  rw [hmod, UInt32.ofNat_mod_size]

instance : CommRing Torus where
  add_assoc x y z := Torus.ext (UInt32.add_assoc _ _ _)
  zero_add x := Torus.ext (UInt32.zero_add _)
  add_zero x := Torus.ext (UInt32.add_zero _)
  add_comm x y := Torus.ext (UInt32.add_comm _ _)
  left_distrib x y z := Torus.ext UInt32.mul_add
  right_distrib x y z := Torus.ext UInt32.add_mul
  zero_mul x := Torus.ext UInt32.zero_mul
  mul_zero x := Torus.ext UInt32.mul_zero
  mul_assoc x y z := Torus.ext (UInt32.mul_assoc _ _ _)
  one_mul x := Torus.ext (UInt32.one_mul _)
  mul_one x := Torus.ext (UInt32.mul_one _)
  mul_comm x y := Torus.ext (UInt32.mul_comm _ _)
  neg_add_cancel x := Torus.ext (UInt32.add_left_neg _)
  sub_eq_add_neg x y := Torus.ext (UInt32.sub_eq_add_neg _ _)
  nsmul := nsmulRec
  zsmul := zsmulRec
  natCast_zero := rfl
  natCast_succ n := Torus.ext (UInt32.ofNat_add n 1)
  intCast_ofNat := ofInt_natCast
  intCast_negSucc n := by
    have hneg : ofInt (-((n + 1 : Nat) : Int)) = -ofInt ((n + 1 : Nat) : Int) :=
      Torus.ext (UInt32.ofInt_neg _)
    calc
      ofInt (Int.negSucc n) = -ofInt ((n + 1 : Nat) : Int) := by
        rw [← hneg, Int.negSucc_eq]
        rfl
      _ = -((n + 1 : Nat) : Torus) := by
        rw [ofInt_natCast]
        rfl

instance : Nontrivial Torus := ⟨0, 1, by decide⟩

/-! ## Representatives -/

theorem toNat_lt (x : Torus) : x.toNat < 2 ^ 32 :=
  x.word.toNat_lt

theorem toNat_natCast (n : Nat) : (n : Torus).toNat = n % 2 ^ 32 := by
  simp [natCast_def, ofNat, toNat]

/-- An element is the cast of its least number of units. -/
@[simp] theorem natCast_toNat (x : Torus) : (x.toNat : Torus) = x :=
  Torus.ext (by simp [natCast_def, ofNat, toNat])

/-- A fraction of a turn is a power of two in units. -/
theorem fraction_eq (l : Nat) : fraction l = 2 ^ (32 - l) := by
  rw [fraction, Nat.one_shiftLeft, ← natCast_def]
  push_cast
  rfl

theorem toNat_injective : Function.Injective toNat := by
  intro x y h
  rw [← natCast_toNat x, h, natCast_toNat]

/-- A whole turn is no angle. -/
theorem natCast_turn : ((2 ^ 32 : Nat) : Torus) = 0 := by
  apply toNat_injective
  rw [toNat_natCast]
  rfl

/-- The least number of units of a cast is its remainder. -/
theorem toNat_intCast (i : Int) : ((i : Torus).toNat : Int) = i % 2 ^ 32 := by
  have hword : (i : Torus).toNat = (i % 2 ^ 32).toNat % 2 ^ 32 :=
    UInt32.toNat_ofNat'
  omega

/-- Casts forget whole turns. -/
theorem intCast_eq_intCast_iff {i j : Int} : (i : Torus) = j ↔ i % 2 ^ 32 = j % 2 ^ 32 := by
  rw [← toNat_intCast, ← toNat_intCast, Int.natCast_inj]
  exact toNat_injective.eq_iff.symm

theorem centered_intCast (i : Int) : (i : Torus).centered = i.bmod (2 ^ 32) := by
  have hbmod : (i : Torus).centered = (i % 2 ^ 32).bmod (2 ^ 32) := by
    rw [← toNat_intCast]
    rfl
  rw [hbmod]
  exact Int.emod_bmod i (2 ^ 32)

/-- An element is the cast of its centred number of units. -/
@[simp] theorem intCast_centered (x : Torus) : (x.centered : Torus) = x := by
  have hcast : ((x.toNat : Int) : Torus) = x := by
    rw [Int.cast_natCast, natCast_toNat]
  conv_rhs => rw [← hcast]
  rw [intCast_eq_intCast_iff]
  exact Int.bmod_emod

@[simp] theorem centered_zero : (0 : Torus).centered = 0 := by
  have h := centered_intCast 0
  rwa [Int.cast_zero, Int.zero_bmod] at h

theorem neg_le_centered (x : Torus) : -2 ^ 31 ≤ x.centered :=
  Int.le_bmod (by decide)

theorem centered_lt (x : Torus) : x.centered < 2 ^ 31 :=
  Int.bmod_lt (by decide)

/-- No number of units of an element is smaller than the centred one. -/
theorem abs_centered_intCast_le (i : Int) : |(i : Torus).centered| ≤ |i| := by
  have hlow : -2 ^ 31 ≤ (i : Torus).centered := neg_le_centered _
  have hhigh : (i : Torus).centered < 2 ^ 31 := centered_lt _
  -- Both are numbers of units of one element, so they differ by whole turns.
  have hcongr : (i : Torus).centered % 2 ^ 32 = i % 2 ^ 32 :=
    intCast_eq_intCast_iff.1 (intCast_centered _)
  rw [abs_le]
  rcases abs_cases i with ⟨habs, _⟩ | ⟨habs, _⟩ <;> rw [habs] <;> constructor <;> omega

theorem abs_centered_add_le (x y : Torus) :
    |(x + y).centered| ≤ |x.centered| + |y.centered| := by
  -- The sum of the centred numbers is one of the numbers of units of the sum.
  have hcast : x + y = ((x.centered + y.centered : Int) : Torus) := by
    simp
  calc
    |(x + y).centered| ≤ |x.centered + y.centered| := by
      conv_lhs => rw [hcast]
      exact abs_centered_intCast_le _
    _ ≤ |x.centered| + |y.centered| := abs_add_le _ _

theorem abs_centered_intCast_mul_le (i : Int) (x : Torus) :
    |((i : Torus) * x).centered| ≤ |i| * |x.centered| := by
  have hcast : (i : Torus) * x = ((i * x.centered : Int) : Torus) := by
    simp
  rw [← abs_mul, hcast]
  exact abs_centered_intCast_le _

/-- The second half of the turn is where the centred number of units is negative. -/
theorem upperHalf_iff (x : Torus) : x.upperHalf = true ↔ x.centered < 0 := by
  have hlow : -2 ^ 31 ≤ x.centered := neg_le_centered _
  have hhigh : x.centered < 2 ^ 31 := centered_lt _
  have hcongr : x.centered % 2 ^ 32 = (x.toNat : Int) % 2 ^ 32 := Int.bmod_emod
  have hlt : x.toNat < 2 ^ 32 := x.toNat_lt
  simp only [upperHalf, decide_eq_true_eq]
  omega

end Torus

end TorusFHE
