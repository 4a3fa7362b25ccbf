import TorusFHE.Fourier.BitReversal
import TorusFHE.Fourier.Butterfly
import TorusFHE.Fourier.Scalar
import TorusFHE.Torus.Polynomial

/-!
# The negacyclic Fourier transform

Products in `T[X] / (X ^ n + 1)` through `n / 2` complex points.  The upper half of the coefficients
is folded into the imaginary parts of the lower half, and the points are twisted by the roots
`e ^ (iπj / n)`, which turns the negacyclic product into a cyclic one.

With exact numbers `Transform.mul` is the product of the ring.  With machine numbers it is documented
to be so as long as `n * |a| * |b| < 2 ^ 52`, which covers an arbitrary polynomial times a binary one.
That is a rule of use and no theorem: roots and products are rounded on the way, and for `n = 4` there
are operands within the bound whose product comes out one unit off.
-/

namespace TorusFHE

/-- The roots of unity of the transform on polynomials of one size. -/
structure Transform (κ : Type) where
  size : Nat
  twist : List κ
  untwist : List κ
  /-- The roots `e ^ (iπj / m)` on `m` points, in bit-reversed order. -/
  twiddle : Array κ
  /-- Their conjugates, in the same order. -/
  untwiddle : Array κ

namespace Transform

variable {κ : Type} [FourierScalar κ]

def points (t : Transform κ) : Nat :=
  t.size / 2

/-- The transform on polynomials of `n` coefficients, for a power of two `n` of at least 2. -/
def ofSize (n : Nat) : Except Fault (Transform κ) :=
  if n < 2 then .error (.transformTooSmall n)
  else if n.isPowerOfTwo then
    let m := n / 2
    let twist := (List.range m).map fun j => FourierScalar.root j n
    let twiddle := (List.range m).map fun j => FourierScalar.root j m
    .ok {
      size := n
      twist := twist
      untwist := twist.map FourierScalar.conj
      twiddle := (reverseBits m.log2 twiddle).toArray
      untwiddle := (reverseBits m.log2 (twiddle.map FourierScalar.conj)).toArray }
  else .error (.notPowerOfTwo n)

/-- The points of a polynomial, in bit-reversed order. -/
def forward (t : Transform κ) (a : TorusVec) : Except Fault (List κ) :=
  if a.length = t.size then
    let low := a.take t.points
    let high := a.drop t.points
    let folded := List.zipWith (fun x y => FourierScalar.ofParts x.centered y.centered) low high
    let twisted := List.zipWith (· * ·) folded t.twist
    .ok (Butterfly.forward (fun c => t.twiddle.getD c 0) t.points.log2 0 twisted)
  else .error (.lengthMismatch a.length t.size)

/-- The polynomial with these points, every coefficient rounded to the nearest unit. -/
def backward (t : Transform κ) (c : List κ) : Except Fault Polynomial :=
  if c.length = t.points then
    let twisted := Butterfly.backward (fun c => t.untwiddle.getD c 0) t.points.log2 0 c
    let folded := List.zipWith (fun x r => FourierScalar.divNat (x * r) t.points) twisted t.untwist
    let parts := folded.map FourierScalar.toParts
    .ok ⟨parts.map (fun p => Torus.ofInt p.1) ++ parts.map (fun p => Torus.ofInt p.2)⟩
  else .error (.lengthMismatch c.length t.points)

def mul (t : Transform κ) (a b : TorusVec) : Except Fault Polynomial := do
  t.backward (← zipExact (· * ·) (← t.forward a) (← t.forward b))

/-- Adds the entrywise product of `a` and `b` to `acc`. -/
def accumulate (acc a b : List κ) : Except Fault (List κ) := do
  zipExact (· + ·) acc (← zipExact (· * ·) a b)

/-- The sum of the products of polynomials given by their points, with one backward transform. -/
def innerProduct (t : Transform κ) (as bs : List (List κ)) : Except Fault Polynomial := do
  let pairs ← zipExact Prod.mk as bs
  t.backward (← pairs.foldlM (fun acc p => accumulate acc p.1 p.2) (List.replicate t.points 0))

end Transform

end TorusFHE
