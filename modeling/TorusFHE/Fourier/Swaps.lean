import TorusFHE.Torus.WordGadget

/-!
# Bit reversal by swaps

The bit-reversal permutation in place, as a processor does it.  The positions are gone through in
order.  All 64 bits of a position are put in reverse and shifted down until only those within the
length are left, and the entries at both positions are swapped if the new one is the greater.

A swap has no result where one of its positions lies beyond the end, and the permutation has none
where the length is above two and no power of two.
-/

namespace TorusFHE

/-- All bits of a word in reverse. -/
def Word64.reverse (a : UInt64) : UInt64 :=
  ⟨a.toBitVec.reverse⟩

/-- The `depth` low bits of a position in reverse, for a depth from 1 to 64. -/
def reversedPosition? (depth i : Nat) : Option Nat := do
  return (← Word64.shiftRight? (Word64.reverse (.ofNat i)) (64 - depth)).toNat

variable {α : Type}

def swap? (a : Array α) (i j : Nat) : Option (Array α) :=
  if h : i < a.size ∧ j < a.size then some (a.swap i j h.1 h.2) else none

/-- Swaps the entry at position `i` with the one at the reversed position, if that is greater. -/
def swapReversed? (depth : Nat) (a : Array α) (i : Nat) : Option (Array α) := do
  let j ← reversedPosition? depth i
  if i < j then swap? a i j else return a

/-- The bit-reversal permutation by swaps. -/
def bitReversalInPlace? (a : Array α) : Option (Array α) :=
  if a.size ≤ 2 then some a
  else if a.size.isPowerOfTwo then (List.range a.size).foldlM (swapReversed? a.size.log2) a
  else none

end TorusFHE
