import TorusFHE.Fourier.Transform
import TorusFHE.Lwe.Sample

/-!
# Samples of ring learning with errors

A key of rank `k` is a list of `k` binary polynomials, a sample a mask of `k` polynomials and a body
of the same size.  The phase of a sample is its body less the sum of the products of its mask
polynomials and those of the key.

Encryption and decryption meet the key only through that sum.  They are defined over
`Glwe.MaskProduct`, any function in its place, so that what holds between the two does not hang on
how products are computed; `GlweKey.maskProduct` is the one by the Fourier transform.
-/

namespace TorusFHE

structure GlweKey where
  polys : List Polynomial
deriving DecidableEq

@[ext] structure GlweSample where
  mask : List Polynomial
  body : Polynomial
deriving DecidableEq, Repr

namespace GlweKey

variable {γ : Type} [Generator γ]

/-- Draws a binary key of `k` polynomials of `n` coefficients, one word for a coefficient. -/
def generate (k n : Nat) : Draw γ GlweKey := do
  let polys ← (List.replicate k ()).mapM fun _ => do
    let coeffs ← Draw.sample (Sampler.binary.repeated n)
    Draw.lift (Polynomial.ofVec coeffs)
  return ⟨polys⟩

/-- The coefficients of all polynomials in order, a key of samples without ring structure. -/
def toLweKey (s : GlweKey) : LweKey :=
  ⟨s.polys.flatMap Polynomial.coeffs⟩

end GlweKey

namespace Glwe

/-- A key as encryption and decryption see it: its rank, the size of its polynomials, and the sum
of the products of a list of polynomials with those of the key. -/
structure MaskProduct where
  rank : Nat
  degree : Nat
  product : List Polynomial → Except Fault Polynomial

def maskProduct {κ : Type} [FourierScalar κ] (t : Transform κ) (s : GlweKey) :
    Except Fault MaskProduct := do
  let key ← s.polys.mapM fun p => t.forward p.coeffs
  return {
    rank := key.length
    degree := t.size
    product := fun mask => do
      t.innerProduct (← mask.mapM fun p => t.forward p.coeffs) key }

variable {γ : Type}

/-- Draws a polynomial of `n` coefficients, one draw for a coefficient. -/
def drawPolynomial (n : Nat) (s : Sampler γ Torus) : Draw γ Polynomial := do
  let coeffs ← Draw.sample (s.repeated n)
  Draw.lift (Polynomial.ofVec coeffs)

/-- The encryption of `m`; draws the mask, then the noise of every coefficient. -/
def encrypt [Generator γ] (s : MaskProduct) (m : Polynomial) (noise : Sampler γ Torus) :
    Draw γ GlweSample := do
  let mask ← (List.replicate s.rank ()).mapM fun _ => drawPolynomial s.degree Sampler.uniform
  let e ← drawPolynomial s.degree noise
  let body ← Draw.lift do
    let noisy ← (← s.product mask).add e
    noisy.add m
  return ⟨mask, body⟩

/-- What a sample stands for: its body less the sum of products. -/
def phase (s : MaskProduct) (c : GlweSample) : Except Fault Polynomial := do
  c.body.sub (← s.product c.mask)

end Glwe

end TorusFHE
