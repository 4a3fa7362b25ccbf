import TorusFHE.Fourier.Butterfly

/-!
# Layers of butterflies

The forward pass of `Butterfly` in the order in which a list is gone over in place.  A layer combines
the halves of all blocks of one size from the left to the right, and the next layer does the same
with blocks of half this size.  In every layer the blocks are numbered from zero, and the block
numbered `c` meets the twiddle factor `c`.
-/

namespace TorusFHE.Butterfly

variable {κ : Type}

/-- Replaces the first `count` blocks of `size` entries, numbered from `first` on. -/
def mapBlocks (f : Nat → List κ → List κ) (size : Nat) : (count first : Nat) → List κ → List κ
  | 0, _, a => a
  | count + 1, first, a =>
    f first (a.take size) ++ mapBlocks f size count (first + 1) (a.drop size)

variable [Add κ] [Sub κ] [Mul κ]

/-- The butterfly of the two halves of a block, with the twiddle factor `t`. -/
def combineHalves (t : κ) (half : Nat) (block : List κ) : List κ :=
  let low := block.take half
  let high := (block.drop half).map (t * ·)
  List.zipWith (· + ·) low high ++ List.zipWith (· - ·) low high

/-- The layers of a forward pass over `count` blocks of `2 ^ depth` entries. -/
def forwardLayers (t : Nat → κ) : (depth count : Nat) → List κ → List κ
  | 0, _, a => a
  | depth + 1, count, a =>
    let combine := fun c => combineHalves (t c) (1 <<< depth)
    forwardLayers t depth (2 * count) (mapBlocks combine (1 <<< (depth + 1)) count 0 a)

end TorusFHE.Butterfly
