import TorusFHE.Scheme.PublicKey
import TorusFHE.Scheme.ServerKey

/-!
# Shapes of the public objects

An object that was read may claim any lengths and any parameters.  `checkShape` accepts it only if
its parameters make an instance and all its lengths are those that the parameters prescribe, and
otherwise reports the first violation on the way through the object.
-/

namespace TorusFHE

/-- Whether an object holds together, or the first violation. -/
abbrev ShapeCheck := Except ShapeError Unit

namespace ShapeCheck

def size (part : SizedPart) (expected found : Nat) : ShapeCheck :=
  if expected = found then .ok () else .error (.size part expected found)

/-- Checks that a declared dimension is one that parameters could have. -/
def dimension (n : UInt64) : ShapeCheck :=
  if 0 < n.toNat ∧ n.toNat ≤ Parameters.maxLweDimension then .ok ()
  else .error (.dimension n.toNat)

end ShapeCheck

def Parameters.checkShape (p : Parameters) : ShapeCheck :=
  p.validate.mapError .parameters

def Ciphertext.checkShape (c : Ciphertext) : ShapeCheck := do
  ShapeCheck.dimension c.lweDimension
  ShapeCheck.size .mask c.lweDimension.toNat c.sample.dimension

def CompressedCiphertext.checkShape (c : CompressedCiphertext) : ShapeCheck :=
  ShapeCheck.dimension c.lweDimension

def GlweSample.checkShape (p : Parameters) (c : GlweSample) : ShapeCheck := do
  ShapeCheck.size .glweMask p.k c.mask.length
  (c.mask ++ [c.body]).forM fun poly => ShapeCheck.size .polynomial p.degree poly.size

def GgswSample.checkShape (p : Parameters) (c : GgswSample) : ShapeCheck := do
  ShapeCheck.size .ggsw ((p.k + 1) * p.pbsLevel.toNat) c.rows.length
  c.rows.forM (GlweSample.checkShape p)

def KeySwitchingKey.checkShape (p : Parameters) (k : KeySwitchingKey) : ShapeCheck := do
  ShapeCheck.size .keySwitchingKey (p.k * p.degree * p.ksLevel.toNat) k.samples.length
  k.samples.forM fun c => ShapeCheck.size .keySwitchingKeyMask p.n c.dimension

def ServerKey.checkShape (k : ServerKey) : ShapeCheck := do
  k.params.checkShape
  ShapeCheck.size .bootstrappingKey k.params.n k.bootstrappingKey.length
  k.bootstrappingKey.forM (GgswSample.checkShape k.params)
  k.keySwitchingKey.checkShape k.params

def PublicKey.checkShape (k : PublicKey) : ShapeCheck := do
  k.params.checkShape
  ShapeCheck.size .publicKey (publicKeySize k.params.n) k.zeros.length
  k.zeros.forM fun c => ShapeCheck.size .publicKeyMask k.params.n c.dimension

def CompressedPublicKey.checkShape (k : CompressedPublicKey) : ShapeCheck := do
  k.params.checkShape
  ShapeCheck.size .compressedPublicKey (publicKeySize k.params.n) k.bodies.length

end TorusFHE
