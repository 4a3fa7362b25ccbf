import TorusFHE.Scheme.PublicKey
import TorusFHE.Scheme.ServerKey
import TorusFHE.Wire.Format

/-!
# Formats of the public objects

Every object is written as its fields in order.  The lengths inside an object are free as far as its
format goes; whether they fit its parameters is decided once the whole object has been read.
-/

namespace TorusFHE

open WireFormat

instance : WireFormat Torus :=
  via Torus.word Torus.mk

instance : WireFormat Binary64 :=
  via Binary64.bits Binary64.mk

instance : WireFormat Seed :=
  via (fun s => ⟨s.bytes.toArray, s.length_bytes⟩) Seed.ofVector

instance : WireFormat Polynomial :=
  via Polynomial.coeffs Polynomial.mk

instance : WireFormat LweSample :=
  via (fun c => (c.mask, c.body)) fun p => ⟨p.1, p.2⟩

instance : WireFormat SeededSample :=
  via (fun c => (c.seed, c.body)) fun p => ⟨p.1, p.2⟩

instance : WireFormat KeySwitchingKey :=
  via KeySwitchingKey.samples KeySwitchingKey.mk

instance : WireFormat GlweSample :=
  via (fun c => (c.mask, c.body)) fun p => ⟨p.1, p.2⟩

instance : WireFormat GgswSample :=
  via GgswSample.rows GgswSample.mk

instance : WireFormat Parameters :=
  via
    (fun p => (p.lweDimension, p.glweDimension, p.polynomialSize, p.lweStdDev, p.glweStdDev,
      p.pbsBaseLog, p.pbsLevel, p.ksBaseLog, p.ksLevel))
    fun (n, k, size, lweStdDev, glweStdDev, pbsBaseLog, pbsLevel, ksBaseLog, ksLevel) =>
      ⟨n, k, size, lweStdDev, glweStdDev, pbsBaseLog, pbsLevel, ksBaseLog, ksLevel⟩

instance : WireFormat Ciphertext :=
  via (fun c => (c.lweDimension, c.sample)) fun p => ⟨p.1, p.2⟩

instance : WireFormat CompressedCiphertext :=
  via (fun c => (c.lweDimension, c.sample)) fun p => ⟨p.1, p.2⟩

instance : WireFormat ServerKey :=
  via (fun k => (k.bootstrappingKey, k.keySwitchingKey, k.params)) fun p => ⟨p.1, p.2.1, p.2.2⟩

instance : WireFormat PublicKey :=
  via (fun k => (k.zeros, k.params)) fun p => ⟨p.1, p.2⟩

instance : WireFormat CompressedPublicKey :=
  via (fun k => (k.seed, k.bodies, k.params)) fun p => ⟨p.1, p.2.1, p.2.2⟩

end TorusFHE
