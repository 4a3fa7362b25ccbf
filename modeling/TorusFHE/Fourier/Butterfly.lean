/-!
# Butterflies

The core of a Fourier transform on `2 ^ depth` points.  A forward pass combines the two halves of a
block by `(a, b) ↦ (a + t * b, a - t * b)` and goes on with each half; the backward pass starts from
blocks of one point and combines halves by `(a, b) ↦ (a + b, (a - b) * u)`.  Both use one twiddle
factor for a block: the block numbered `c` consists of the halves numbered `2 * c` and `2 * c + 1`,
so that the factors are met in bit-reversed order.

The results of the forward pass come in bit-reversed order, and the backward pass expects them so.
Neither asks more of the numbers than sums, differences and products.
-/

namespace TorusFHE.Butterfly

variable {κ : Type} [Add κ] [Sub κ] [Mul κ]

/-- The forward pass over the block numbered `c`, with the twiddle factors `t`. -/
def forward (t : Nat → κ) : Nat → Nat → List κ → List κ
  | 0, _, a => a
  | depth + 1, c, a =>
    let low := a.take (1 <<< depth)
    let high := (a.drop (1 <<< depth)).map (t c * ·)
    forward t depth (2 * c) (List.zipWith (· + ·) low high)
      ++ forward t depth (2 * c + 1) (List.zipWith (· - ·) low high)

/-- The backward pass over the block numbered `c`, with the twiddle factors `u`.  The result is
not divided by the number of points. -/
def backward (u : Nat → κ) : Nat → Nat → List κ → List κ
  | 0, _, a => a
  | depth + 1, c, a =>
    let low := backward u depth (2 * c) (a.take (1 <<< depth))
    let high := backward u depth (2 * c + 1) (a.drop (1 <<< depth))
    List.zipWith (· + ·) low high ++ List.zipWith (fun x y => (x - y) * u c) low high

end TorusFHE.Butterfly
