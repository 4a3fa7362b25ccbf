import TorusFHE.Torus.WordGadget
import TorusFHE.Wire.Shape

/-!
# Shape checks with sizes on words of 64 bits

The numbers of rows and of key-switching samples that a server key has to have are products of its
parameters.  Here they are found on words, before any length is looked at: an object is refused
where 64 bits do not hold a product or a part of it, and the sum of the number of mask polynomials
and one has no result where it is no number of 64 bits.

* `Word64.product?` multiplies factors from the left;
* `ServerKey.wordCheckShape?` is `ServerKey.checkShape` on words.
-/

namespace TorusFHE

namespace Word64

/-- The product of factors, if 64 bits hold it and every product on the way. -/
def product? (factors : List UInt64) : Option UInt64 :=
  factors.foldlM mul? 1

end Word64

/-- Why an object is refused where the prescribed sizes are found on words. -/
inductive WordShapeError where
  | shape (cause : ShapeError)
  /-- The length that the parameters prescribe for a part is no number of 64 bits. -/
  | overflow (part : SizedPart)
deriving DecidableEq, Repr

/-- The length that factors prescribe for a part. -/
def ShapeCheck.product (part : SizedPart) (factors : List UInt64) : Except WordShapeError UInt64 :=
  match Word64.product? factors with
  | some n => .ok n
  | none => .error (.overflow part)

namespace ServerKey

/-- Checks all lengths, with the numbers of rows and of key-switching samples found before. -/
def checkLengths (k : ServerKey) (rows samples : UInt64) : ShapeCheck := do
  ShapeCheck.size .bootstrappingKey k.params.n k.bootstrappingKey.length
  k.bootstrappingKey.forM fun c => do
    ShapeCheck.size .ggsw rows.toNat c.rows.length
    c.rows.forM (GlweSample.checkShape k.params)
  ShapeCheck.size .keySwitchingKey samples.toNat k.keySwitchingKey.samples.length
  k.keySwitchingKey.samples.forM fun c =>
    ShapeCheck.size .keySwitchingKeyMask k.params.n c.dimension

/-- The shape check as a processor does it: the parameters first, then the sizes that they
prescribe, then the lengths. -/
def wordCheckShape? (k : ServerKey) : Option (Except WordShapeError Unit) :=
  match k.params.checkShape with
  | .error e => some (.error (.shape e))
  | .ok () => do
    let p := k.params
    let polynomials ← Word64.add? p.glweDimension 1
    return do
      let rows ← ShapeCheck.product .ggsw [polynomials, p.pbsLevel]
      let samples ←
        ShapeCheck.product .keySwitchingKey [p.glweDimension, p.polynomialSize, p.ksLevel]
      (k.checkLengths rows samples).mapError .shape

end ServerKey

end TorusFHE
