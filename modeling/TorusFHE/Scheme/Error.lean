import TorusFHE.Scheme.Parameters
import TorusFHE.Wire.Reader

/-!
# Errors of the public interface

Each error is a cause with its data; the wording is in the `message` functions.  Reading a buffer
fails either on its bytes (`DecodeError`, made from the `ReadError` of the reader) or, once these
make up an object, on the sizes and parameters that the object claims (`ShapeError`).
-/

namespace TorusFHE

/-- A length that the parameters of an object prescribe. -/
inductive SizedPart where
  | mask
  | bootstrappingKey
  | ggsw
  | glweMask
  | polynomial
  | keySwitchingKey
  | keySwitchingKeyMask
  | publicKey
  | publicKeyMask
  | compressedPublicKey
deriving DecidableEq, Repr

def SizedPart.name : SizedPart → String
  | mask => "a"
  | bootstrappingKey => "bootstrapping_key"
  | ggsw => "ggsw"
  | glweMask => "glwe_mask"
  | polynomial => "polynomial"
  | keySwitchingKey => "key_switching_key"
  | keySwitchingKeyMask => "key_switching_key_mask"
  | publicKey => "public_key"
  | publicKeyMask => "public_key_mask"
  | compressedPublicKey => "compressed_public_key"

/-- Why an object that was read is refused. -/
inductive ShapeError where
  | parameters (cause : InvalidSetting)
  /-- The dimension that it declares is zero or too large. -/
  | dimension (declared : Nat)
  /-- A part of it does not have the length that the rest prescribes. -/
  | size (part : SizedPart) (expected found : Nat)
deriving DecidableEq, Repr

def ShapeError.message : ShapeError → String
  | parameters cause => s!"invalid parameters: {cause.message}"
  | dimension declared =>
    let limit := Parameters.maxLweDimension
    s!"invalid parameters: lwe_dimension {declared} is outside 1..={limit}"
  | size part expected found =>
    s!"size mismatch in `{part.name}`: expected {expected}, found {found}"

/-- What makes a buffer malformed. -/
inductive Malformation where
  | reservedByte
  | unreadable (cause : ReadError)
deriving DecidableEq, Repr

def Malformation.message : Malformation → String
  | reservedByte => "reserved header byte is not zero"
  | unreadable cause => cause.message

inductive DecodeError where
  | truncated
  | badMagic
  | unsupportedVersion (found : Nat)
  | unexpectedKind (expected found : Nat)
  | malformed (cause : Malformation)
  | trailingBytes
  | shape (cause : ShapeError)
deriving DecidableEq, Repr

def DecodeError.message : DecodeError → String
  | truncated => "buffer is truncated"
  | badMagic => "bad magic bytes"
  | unsupportedVersion found => s!"unsupported format version {found}"
  | unexpectedKind expected found =>
    s!"unexpected object kind, expected {expected}, found {found}"
  | malformed cause => s!"malformed body: {cause.message}"
  | trailingBytes => "trailing bytes after body"
  | shape cause => cause.message

/-- Whoever runs out of bytes, by the limit or by the end, has met a truncated buffer. -/
def DecodeError.ofRead : ReadError → DecodeError
  | .unexpectedEnd => truncated
  | .sizeLimit => truncated
  | cause => malformed (.unreadable cause)

/-- Why the source of randomness of a thread cannot be used. -/
inductive EntropyError where
  /-- A computation on the same thread is using it already. -/
  | inUse
deriving DecidableEq, Repr

def EntropyError.message : EntropyError → String
  | inUse => "entropy source failed: engine is already in use on this thread"

inductive KeyStage where
  | clientKey
  | serverKey
  | publicKey
  | compressedPublicKey
  | keyPair
deriving DecidableEq, Repr

def KeyStage.name : KeyStage → String
  | clientKey => "client key"
  | serverKey => "server key"
  | publicKey => "public key"
  | compressedPublicKey => "compressed public key"
  | keyPair => "key pair"

/-- An error of the public interface. -/
inductive Error where
  | invalidParameter (cause : InvalidSetting)
  | keyGeneration (stage : KeyStage) (cause : EntropyError)
  | entropy (cause : EntropyError)
  | dimensionMismatch (expected found : Nat)
  | deserialization (cause : DecodeError)
deriving DecidableEq, Repr

def Error.message : Error → String
  | invalidParameter cause => cause.message
  | keyGeneration stage cause => s!"key generation failed at {stage.name}: {cause.message}"
  | entropy cause => cause.message
  | dimensionMismatch expected found =>
    s!"dimension mismatch: expected {expected}, found {found}"
  | deserialization cause => s!"deserialization failed: {cause.message}"

end TorusFHE
