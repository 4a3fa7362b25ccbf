import TorusFHE.Wire.Objects
import TorusFHE.Wire.Shape

/-!
# Buffers

A buffer is a header of eight bytes and a body.  The header is the mark `BFHE`, the version of the
format in two bytes, the kind of object and a zero; the body is the object in its binary format.

Reading is all or nothing: an object is returned only if the header is that of its kind, the body is
exactly the bytes of an object, and the shape of that object holds together, checked in this order.
-/

namespace TorusFHE

inductive ObjectKind where
  | parameters
  | ciphertext
  | compressedCiphertext
  | serverKey
  | publicKey
  | compressedPublicKey
deriving DecidableEq, Repr

/-- The byte of a kind in a header. -/
def ObjectKind.code : ObjectKind → UInt8
  | parameters => 1
  | ciphertext => 2
  | compressedCiphertext => 3
  | serverKey => 4
  | publicKey => 5
  | compressedPublicKey => 6

class WireObject (α : Type) extends WireFormat α where
  kind : ObjectKind
  /-- Whether an object that was read holds together. -/
  checkShape : α → ShapeCheck

instance : WireObject Parameters where
  kind := .parameters
  checkShape := Parameters.checkShape

instance : WireObject Ciphertext where
  kind := .ciphertext
  checkShape := Ciphertext.checkShape

instance : WireObject CompressedCiphertext where
  kind := .compressedCiphertext
  checkShape := CompressedCiphertext.checkShape

instance : WireObject ServerKey where
  kind := .serverKey
  checkShape := ServerKey.checkShape

instance : WireObject PublicKey where
  kind := .publicKey
  checkShape := PublicKey.checkShape

instance : WireObject CompressedPublicKey where
  kind := .compressedPublicKey
  checkShape := CompressedPublicKey.checkShape

namespace Buffer

/-- What stands in front of every body. -/
structure Header where
  magic : Vector UInt8 4
  version : UInt16
  kind : UInt8
  reserved : UInt8
deriving DecidableEq

instance : WireFormat Header :=
  .via (fun h => (h.magic, h.version, h.kind, h.reserved)) fun p => ⟨p.1, p.2.1, p.2.2.1, p.2.2.2⟩

/-- The first four bytes of every buffer: the letters `BFHE`. -/
def magic : Vector UInt8 4 :=
  #v[0x42, 0x46, 0x48, 0x45]

def version : UInt16 :=
  1

def headerSize : Nat :=
  8

/-- The header of the objects of a kind. -/
def header (kind : ObjectKind) : List UInt8 :=
  WireFormat.encode (⟨magic, version, kind.code, 0⟩ : Header)

/-- Checks the header of a buffer and returns its body. -/
def body (kind : ObjectKind) (buffer : List UInt8) : Except DecodeError (List UInt8) :=
  if buffer.length < headerSize then .error .truncated
  else do
    let found : Header ←
      (WireFormat.readAll (buffer.take headerSize)).mapError DecodeError.ofRead
    if found.magic ≠ magic then .error .badMagic
    else if found.version ≠ version then .error (.unsupportedVersion found.version.toNat)
    else if found.kind ≠ kind.code then
      .error (.unexpectedKind kind.code.toNat found.kind.toNat)
    else if found.reserved ≠ 0 then .error (.malformed .reservedByte)
    else .ok (buffer.drop headerSize)

variable {α : Type} [WireObject α]

/-- The buffer of an object. -/
def serialize (a : α) : List UInt8 :=
  header (WireObject.kind α) ++ WireFormat.encode a

/-- The object in a buffer.  Its body is read with as many bytes as limit as it has. -/
def decode (buffer : List UInt8) : Except DecodeError α := do
  let rest ← body (WireObject.kind α) buffer
  let (a, behind) ← (WireFormat.decode.run (.whole rest)).mapError DecodeError.ofRead
  if behind.bytes.isEmpty then
    (WireObject.checkShape a).mapError .shape
    return a
  else throw .trailingBytes

/-- The object in a buffer, with failures as errors of the public interface. -/
def deserialize (buffer : List UInt8) : Except Error α :=
  (decode buffer).mapError .deserialization

end Buffer

end TorusFHE
