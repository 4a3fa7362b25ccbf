import TorusFHE.Real.Binary64

/-!
# Numbers of the Fourier domain

`FourierScalar κ` collects what the transform asks of complex numbers: arithmetic, the roots of
unity `e ^ (iπj / n)`, conjugation, division by a size, and the passage from and to integers.  The
transform runs over `ComplexFloat`, pairs of 64-bit machine numbers; what is proved about it is
proved over exact numbers.
-/

namespace TorusFHE

/-- Complex numbers, as far as a Fourier transform needs them. -/
class FourierScalar (κ : Type) extends Zero κ, Add κ, Sub κ, Mul κ where
  ofParts : Int → Int → κ
  /-- The root of unity `e ^ (iπj / n)`, from `j` and `n`. -/
  root : Nat → Nat → κ
  conj : κ → κ
  divNat : κ → Nat → κ
  /-- Both parts rounded to the nearest integer of 64 bits, halves away from zero. -/
  toParts : κ → Int × Int

structure ComplexFloat where
  re : Float
  im : Float

namespace ComplexFloat

/-- The nearest number to half a turn in radians. -/
def pi : Float :=
  Float.ofBits 0x400921fb54442d18

/-- The point at angle `t` on the unit circle. -/
def cis (t : Float) : ComplexFloat :=
  ⟨t.cos, t.sin⟩

instance : FourierScalar ComplexFloat where
  zero := ⟨0, 0⟩
  add a b := ⟨a.re + b.re, a.im + b.im⟩
  sub a b := ⟨a.re - b.re, a.im - b.im⟩
  mul a b := ⟨a.re * b.re - a.im * b.im, a.re * b.im + a.im * b.re⟩
  ofParts x y := ⟨Float.ofInt x, Float.ofInt y⟩
  root j n := cis (Float.ofNat j * pi / Float.ofNat n)
  conj a := ⟨a.re, -a.im⟩
  divNat a m :=
    let inverse := 1 / Float.ofNat m
    ⟨a.re * inverse, a.im * inverse⟩
  toParts a := ((Binary64.ofFloat a.re).toInt64, (Binary64.ofFloat a.im).toInt64)

end ComplexFloat

end TorusFHE
