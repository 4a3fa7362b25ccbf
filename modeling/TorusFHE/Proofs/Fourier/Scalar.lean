import Mathlib.Analysis.SpecialFunctions.Complex.Circle
import TorusFHE.Fourier.Scalar

/-!
# Exact numbers of the Fourier domain

`ExactScalar κ` says that the operations of `FourierScalar κ` are those of a commutative ring with
the roots of unity that their names promise, and that integers in the 64-bit range are read back
from their multiples.  The complex numbers are such a ring, with parts that are rounded as those of
machine numbers are: halves away from zero, numbers beyond the range to its end.
-/

namespace TorusFHE

/-- Commutative rings with exact roots of unity. -/
class ExactScalar (κ : Type) extends FourierScalar κ, CommRing κ where
  /-- The imaginary unit is the root at a quarter of a turn. -/
  ofParts_eq : ∀ x y : Int, ofParts x y = (x : κ) + (y : κ) * root 1 2
  root_add : ∀ i j n : Nat, root (i + j) n = root i n * root j n
  /-- A root depends on its angle only. -/
  root_mul : ∀ j n k : Nat, 0 < k → root (j * k) (n * k) = root j n
  /-- Half a turn is minus one. -/
  root_one_one : root 1 1 = -1
  conj_root_mul : ∀ j n : Nat, conj (root j n) * root j n = 1
  /-- A multiple of a number with integer parts in the range is divided without loss. -/
  toParts_divNat : ∀ (x y : Int) (m : Nat), 0 < m → |x| < 2 ^ 63 → |y| < 2 ^ 63 →
    toParts (divNat ((m : κ) * ofParts x y) m) = (x, y)

namespace ExactScalar

variable {κ : Type} [ExactScalar κ]

theorem root_zero (n : Nat) : FourierScalar.root 0 n = (1 : κ) := by
  have hsquare : FourierScalar.root 0 n = (FourierScalar.root 0 n * FourierScalar.root 0 n : κ) :=
    root_add 0 0 n
  have hunit : FourierScalar.conj (FourierScalar.root 0 n) * FourierScalar.root 0 n = (1 : κ) :=
    conj_root_mul 0 n
  calc
    FourierScalar.root 0 n
        = FourierScalar.conj (FourierScalar.root 0 n) * FourierScalar.root 0 n
            * (FourierScalar.root 0 n : κ) := by rw [hunit, one_mul]
    _ = FourierScalar.conj (FourierScalar.root 0 n) * (FourierScalar.root 0 n : κ) := by
      rw [mul_assoc, ← hsquare]
    _ = 1 := hunit

theorem root_mul_left (j k n : Nat) :
    FourierScalar.root (k * j) n = (FourierScalar.root j n : κ) ^ k := by
  induction k with
  | zero => rw [Nat.zero_mul, root_zero, pow_zero]
  | succ k ih => rw [Nat.succ_mul, root_add, ih, pow_succ]

/-- Half a turn, in any number of steps. -/
theorem root_self {n : Nat} (hn : 0 < n) : FourierScalar.root n n = (-1 : κ) := by
  have hangle := root_mul (κ := κ) 1 1 n hn
  rwa [Nat.one_mul, root_one_one] at hangle

/-- Half turns change the sign only. -/
theorem root_halfTurns_add {n : Nat} (hn : 0 < n) (b j : Nat) :
    FourierScalar.root (b * n + j) n = (-1 : κ) ^ b * FourierScalar.root j n := by
  rw [root_add, root_mul_left, root_self hn]

end ExactScalar

/-! ## The complex numbers -/

/-- The nearest integer of 64 bits: halves go away from zero, numbers beyond the range to its
end. -/
noncomputable def nearestInt64 (x : ℝ) : Int :=
  max Int64.minValue.toInt
    (min Int64.maxValue.toInt (if 0 ≤ x then ⌊x + 1 / 2⌋ else ⌈x - 1 / 2⌉))

theorem nearestInt64_intCast {x : Int} (hx : |x| < 2 ^ 63) : nearestInt64 x = x := by
  have hround : (if (0 : ℝ) ≤ x then ⌊(x : ℝ) + 1 / 2⌋ else ⌈(x : ℝ) - 1 / 2⌉) = x := by
    split
    · rw [Int.floor_eq_iff]
      constructor <;> linarith
    · rw [Int.ceil_eq_iff]
      constructor <;> linarith
  have hleast : Int64.minValue.toInt = -2 ^ 63 := by decide
  have hgreatest : Int64.maxValue.toInt = 2 ^ 63 - 1 := by decide
  rw [abs_lt] at hx
  rw [nearestInt64, hround, hleast, hgreatest]
  omega

/-- The root at the fraction `j / n` of half a turn. -/
noncomputable def complexRoot (j n : Nat) : ℂ :=
  Complex.exp (j / n * (Real.pi * Complex.I))

theorem complexRoot_add (i j n : Nat) :
    complexRoot (i + j) n = complexRoot i n * complexRoot j n := by
  rw [complexRoot, complexRoot, complexRoot, ← Complex.exp_add, Nat.cast_add, add_div, add_mul]

theorem complexRoot_mul (j n : Nat) {k : Nat} (hk : 0 < k) :
    complexRoot (j * k) (n * k) = complexRoot j n := by
  have hk' : (k : ℂ) ≠ 0 := Nat.cast_ne_zero.2 hk.ne'
  rw [complexRoot, complexRoot, Nat.cast_mul, Nat.cast_mul, mul_div_mul_right _ _ hk']

theorem conj_complexRoot_mul (j n : Nat) :
    (starRingEnd ℂ) (complexRoot j n) * complexRoot j n = 1 := by
  rw [complexRoot, ← Complex.exp_conj, ← Complex.exp_add]
  simp

noncomputable instance : ExactScalar ℂ where
  __ := (inferInstance : CommRing ℂ)
  ofParts x y := ⟨x, y⟩
  root := complexRoot
  conj := starRingEnd ℂ
  divNat z m := z / m
  toParts z := (nearestInt64 z.re, nearestInt64 z.im)
  ofParts_eq x y := by
    have hunit : complexRoot 1 2 = Complex.I := by
      rw [complexRoot]
      push_cast
      rw [show (1 : ℂ) / 2 * (Real.pi * Complex.I) = Real.pi / 2 * Complex.I by ring,
        Complex.exp_pi_div_two_mul_I]
    rw [hunit]
    apply Complex.ext <;> simp
  root_add := complexRoot_add
  root_mul j n _ hk := complexRoot_mul j n hk
  root_one_one := by
    rw [complexRoot]
    simp [Complex.exp_pi_mul_I]
  conj_root_mul := conj_complexRoot_mul
  toParts_divNat x y m hm hx hy := by
    have hm' : (m : ℂ) ≠ 0 := Nat.cast_ne_zero.2 hm.ne'
    rw [mul_div_cancel_left₀ _ hm']
    exact Prod.ext (nearestInt64_intCast hx) (nearestInt64_intCast hy)

end TorusFHE
