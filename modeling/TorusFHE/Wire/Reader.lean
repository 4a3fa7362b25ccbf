/-!
# Readers

A reader takes values from the front of a source of bytes.  A source may limit how many of its bytes
are read.  Each number is charged to the limit by its width before its bytes are looked at, so that
whoever declares more than the limit leaves is stopped by it, however many bytes are there.

Numbers are stored least significant byte first and in fixed width.
-/

namespace TorusFHE

/-- Bytes that are still to be read, and how many of them may be. -/
structure ByteSource where
  bytes : List UInt8
  /-- No limit at all if there is no number. -/
  limit : Option Nat
deriving DecidableEq, Repr

/-- A source of which every byte may be read and no more. -/
def ByteSource.whole (bs : List UInt8) : ByteSource :=
  ⟨bs, some bs.length⟩

/-- Why nothing is read. -/
inductive ReadError where
  /-- The limit leaves fewer bytes than the next number has. -/
  | sizeLimit
  /-- The bytes end before the next number does. -/
  | unexpectedEnd
  /-- A list declares more entries than a list can have. -/
  | oversizedLength (declared : Nat)
  /-- An array of fixed length ends before its last entry. -/
  | missingEntry (position expected : Nat)
  /-- Bytes are left over where nothing may follow. -/
  | unreadBytes
deriving DecidableEq, Repr

/-- The largest number of entries of a list. -/
def ReadError.maxLength : Nat :=
  0xffffffffffffffff

def ReadError.message : ReadError → String
  | sizeLimit => "the size limit has been reached"
  | unexpectedEnd => "io error: unexpected end of file"
  | oversizedLength declared =>
    let limit := maxLength
    s!"Invalid size {declared}: sizes must fit in a usize (0 to {limit})"
  | missingEntry position expected =>
    s!"invalid length {position}, expected an array of length {expected}"
  | unreadBytes => "Slice had bytes remaining after deserialization"

abbrev Reader := StateT ByteSource (Except ReadError)

/-! ## Numbers as bytes -/

/-- The `width` low bytes of a number, the least significant first. -/
def numberBytes : Nat → Nat → List UInt8
  | 0, _ => []
  | width + 1, n => UInt8.ofNat n :: numberBytes width (n / 256)

/-- The number whose bytes these are, the least significant first. -/
def numberOfBytes : List UInt8 → Nat
  | [] => 0
  | b :: bs => b.toNat + 256 * numberOfBytes bs

/-- The first `count` bytes and those behind them, if there are that many. -/
def splitFront : Nat → List UInt8 → Option (List UInt8 × List UInt8)
  | 0, bs => some ([], bs)
  | _ + 1, [] => none
  | count + 1, b :: bs => do
    let (front, rest) ← splitFront count bs
    return (b :: front, rest)

namespace Reader

/-- Charges `count` bytes to the limit. -/
def charge (count : Nat) : Reader Unit := fun source =>
  match source.limit with
  | none => .ok ((), source)
  | some left =>
    if count ≤ left then .ok ((), { source with limit := some (left - count) })
    else .error .sizeLimit

/-- Takes `count` bytes. -/
def take (count : Nat) : Reader (List UInt8) := fun source =>
  match splitFront count source.bytes with
  | none => .error .unexpectedEnd
  | some (front, rest) => .ok (front, { source with bytes := rest })

/-- The bytes of the next number, which has `width` of them. -/
def field (width : Nat) : Reader (List UInt8) := do
  charge width
  take width

def number (width : Nat) : Reader Nat :=
  numberOfBytes <$> field width

/-- The length of a list, in eight bytes. -/
def length : Reader Nat := do
  let declared ← number 8
  if declared ≤ ReadError.maxLength then return declared
  else throw (.oversizedLength declared)

end Reader

end TorusFHE
