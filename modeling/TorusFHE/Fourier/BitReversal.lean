import TorusFHE.Fault

/-!
# Bit reversal

The bit-reversal permutation of a list of `2 ^ depth` entries puts at position `i` the entry whose
position has the bits of `i` in reverse.  It is computed by halves: the entries at even positions
come first, those at odd positions last, each half permuted in the same way.
-/

namespace TorusFHE

/-- The entries at even and at odd positions. -/
def splitParity {α : Type} : List α → List α × List α
  | [] => ([], [])
  | a :: l => let (even, odd) := splitParity l; (a :: odd, even)

/-- Permutes a list of `2 ^ depth` entries by reversing the bits of the positions. -/
def reverseBits {α : Type} : Nat → List α → List α
  | 0, l => l
  | depth + 1, l =>
    let (even, odd) := splitParity l
    reverseBits depth even ++ reverseBits depth odd

/-- The bit-reversal permutation.  Lists of at most two entries stay as they are; the length of any
other must be a power of two. -/
def bitReversal {α : Type} (l : List α) : Except Fault (List α) :=
  if l.length ≤ 2 then .ok l
  else if l.length.isPowerOfTwo then .ok (reverseBits l.length.log2 l)
  else .error (.notPowerOfTwo l.length)

end TorusFHE
