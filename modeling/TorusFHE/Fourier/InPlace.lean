import TorusFHE.Fourier.Layers

/-!
# Passes in place

The two passes of `Butterfly` as loops over the layers of a list.  A layer takes the blocks of the
list and the twiddle factors in step, the first block with the first factor, and ends where either
of them ends.  The forward pass begins with the layer of the largest blocks; the backward pass ends
with it.

* `Butterfly.forwardInPlace` is `Butterfly.forward` on the whole list;
* `Butterfly.backwardInPlace` is `Butterfly.backward` on the whole list.
-/

namespace TorusFHE.Butterfly

variable {κ : Type}

/-- Replaces blocks of `size` entries in step with factors; entries without a factor stay. -/
def zipBlocks (f : κ → List κ → List κ) (size : Nat) : List κ → List κ → List κ
  | _, [] => []
  | [], a => a
  | x :: factors, a => f x (a.take size) ++ zipBlocks f size factors (a.drop size)

variable [Add κ] [Sub κ] [Mul κ]

/-- The backward butterfly of the two halves of a block, with the twiddle factor `u`. -/
def recombineHalves (u : κ) (half : Nat) (block : List κ) : List κ :=
  let low := block.take half
  let high := block.drop half
  List.zipWith (· + ·) low high ++ List.zipWith (fun x y => (x - y) * u) low high

/-- The forward butterflies of all blocks with halves of `2 ^ layer` entries. -/
def forwardLayer (t : List κ) (layer : Nat) (a : List κ) : List κ :=
  zipBlocks (fun x => combineHalves x (1 <<< layer)) (2 * (1 <<< layer)) t a

/-- The backward butterflies of all blocks with halves of `2 ^ layer` entries. -/
def backwardLayer (u : List κ) (layer : Nat) (a : List κ) : List κ :=
  zipBlocks (fun x => recombineHalves x (1 <<< layer)) (2 * (1 <<< layer)) u a

/-- The forward pass over a whole list, layer after layer down to pairs. -/
def forwardInPlace (t a : List κ) : List κ :=
  (List.range a.length.log2).reverse.foldl (fun a layer => forwardLayer t layer a) a

/-- The backward pass over a whole list, layer after layer up from pairs.  The result is not divided
by the number of points. -/
def backwardInPlace (u a : List κ) : List κ :=
  (List.range a.length.log2).foldl (fun a layer => backwardLayer u layer a) a

end TorusFHE.Butterfly
