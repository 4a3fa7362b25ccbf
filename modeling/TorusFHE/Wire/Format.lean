import TorusFHE.Wire.Reader

/-!
# Binary formats

A format writes a value as bytes and reads it back from the front of a source.  A list is written as
its length in eight bytes and then its entries, an array of fixed length as its entries alone, a
structure as its parts in order.  Nothing marks where a value ends: the format itself says how many
bytes belong to it.
-/

namespace TorusFHE

/-- A way to write values as bytes and to read them from the front of a source. -/
class WireFormat (α : Type) where
  encode : α → List UInt8
  decode : Reader α

namespace WireFormat

/-! ## Numbers -/

instance : WireFormat UInt8 where
  encode w := numberBytes 1 w.toNat
  decode := UInt8.ofNat <$> Reader.number 1

instance : WireFormat UInt16 where
  encode w := numberBytes 2 w.toNat
  decode := UInt16.ofNat <$> Reader.number 2

instance : WireFormat UInt32 where
  encode w := numberBytes 4 w.toNat
  decode := UInt32.ofNat <$> Reader.number 4

instance : WireFormat UInt64 where
  encode w := numberBytes 8 w.toNat
  decode := UInt64.ofNat <$> Reader.number 8

/-! ## Compound values -/

instance {α β : Type} [WireFormat α] [WireFormat β] : WireFormat (α × β) where
  encode p := encode p.1 ++ encode p.2
  decode := do
    let a ← decode
    (a, ·) <$> decode

/-- Reads `count` values behind those in `acc`, which are in reverse. -/
def readMany {α : Type} [WireFormat α] : Nat → List α → Reader (List α)
  | 0, acc, source => .ok (acc.reverse, source)
  | count + 1, acc, source =>
    match decode.run source with
    | .error e => .error e
    | .ok (a, source) => readMany count (a :: acc) source

instance {α : Type} [WireFormat α] : WireFormat (List α) where
  encode l := numberBytes 8 l.length ++ l.flatMap encode
  decode := do
    let count ← Reader.length
    readMany count []

instance {α : Type} [WireFormat α] {n : Nat} : WireFormat (Vector α n) where
  encode v := v.toList.flatMap encode
  decode := do
    let entries ← readMany n []
    if h : entries.length = n then return ⟨entries.toArray, h⟩
    else throw (.missingEntry entries.length n)

/-- The format of values that are made of one value of another type. -/
@[reducible] def via {α β : Type} [WireFormat β] (part : α → β) (make : β → α) : WireFormat α where
  encode a := encode (part a)
  decode := make <$> decode

/-- The value whose bytes these are, all of them. -/
def readAll {α : Type} [WireFormat α] (bs : List UInt8) : Except ReadError α := do
  let (a, rest) ← decode.run ⟨bs, none⟩
  if rest.bytes.isEmpty then return a
  else throw .unreadBytes

end WireFormat

end TorusFHE
