import TorusFHE.Fourier.Layers
import TorusFHE.Proofs.Fault
import TorusFHE.Proofs.Fourier.Butterfly

/-!
# Layers and blocks

The forward pass over a block is the butterfly of its halves, followed by the passes over both of
them.  Layer after layer the same butterflies are done in another order: those of one size for all
blocks before the first one of the next size.  As no butterfly reaches out of its block, the results
are the same.

* `Butterfly.mapBlocks_halves` and `Butterfly.mapBlocks_pairs`: two layers in a row, taken together
  block by block;
* `Butterfly.forwardLayers_eq_mapBlocks`: all layers, block by block;
* `Butterfly.forwardLayers_eq_forward`: the layers of a list that is one block.
-/

namespace TorusFHE.Butterfly

/-! ## Blocks of a list -/

section Blocks

variable {κ : Type} {f g : Nat → List κ → List κ} {size count first : Nat} {a block rest : List κ}

theorem mapBlocks_cons (hblock : block.length = size) :
    mapBlocks f size (count + 1) first (block ++ rest) =
      f first block ++ mapBlocks f size count (first + 1) rest := by
  rw [mapBlocks, List.take_left' hblock, List.drop_left' hblock]

/-- A list that is one block. -/
theorem mapBlocks_one (ha : a.length = size) : mapBlocks f size 1 first a = f first a := by
  have hcons : mapBlocks f size 1 first (a ++ []) = f first a ++ mapBlocks f size 0 (first + 1) [] :=
    mapBlocks_cons ha
  simpa [mapBlocks] using hcons

theorem mapBlocks_id : mapBlocks (fun _ block => block) size count first a = a := by
  induction count generalizing first a with
  | zero => rfl
  | succ count ih => simp [mapBlocks, ih]

theorem length_mapBlocks (hf : ∀ c block, block.length = size → (f c block).length = size)
    (ha : a.length = count * size) :
    (mapBlocks f size count first a).length = count * size := by
  induction count generalizing first a with
  | zero => exact ha
  | succ count ih =>
    rcases exists_block ha with ⟨block, rest, rfl, hblock, hrest⟩
    rw [mapBlocks_cons hblock, List.length_append, hf first block hblock, ih hrest, Nat.succ_mul,
      Nat.add_comm]

/-- Only what happens to blocks of the right size matters. -/
theorem mapBlocks_congr (h : ∀ c block, block.length = size → f c block = g c block)
    (ha : a.length = count * size) :
    mapBlocks f size count first a = mapBlocks g size count first a := by
  induction count generalizing first a with
  | zero => rfl
  | succ count ih =>
    rcases exists_block ha with ⟨block, rest, rfl, hblock, hrest⟩
    rw [mapBlocks_cons hblock, mapBlocks_cons hblock, h first block hblock, ih hrest]

/-- The blocks of a list behind those of another are numbered from where these end. -/
theorem mapBlocks_append {n : Nat} (ha : a.length = n * size) :
    mapBlocks f size (n + count) first (a ++ rest) =
      mapBlocks f size n first a ++ mapBlocks f size count (first + n) rest := by
  induction n generalizing first a with
  | zero =>
    obtain rfl : a = [] := List.length_eq_zero_iff.1 (by simpa using ha)
    simp [mapBlocks]
  | succ n ih =>
    rcases exists_block ha with ⟨block, tail, rfl, hblock, htail⟩
    rw [Nat.succ_add_eq_add_succ, Nat.add_succ, List.append_assoc, mapBlocks_cons hblock,
      mapBlocks_cons hblock, ih htail, List.append_assoc, Nat.add_right_comm first 1 n,
      Nat.add_assoc first n 1]

/-- A layer of blocks, and behind it one of blocks of half the size. -/
theorem mapBlocks_halves (hf : ∀ c block, block.length = 2 * size → (f c block).length = 2 * size)
    (ha : a.length = count * (2 * size)) :
    mapBlocks g size (2 * count) (2 * first) (mapBlocks f (2 * size) count first a) =
      mapBlocks (fun c block => mapBlocks g size 2 (2 * c) (f c block)) (2 * size) count first a := by
  induction count generalizing first a with
  | zero => rfl
  | succ count ih =>
    rcases exists_block ha with ⟨block, rest, rfl, hblock, hrest⟩
    -- The halves of the first block come first, and the numbers of the others are shifted by two.
    have hnumber : 2 * first + 2 = 2 * (first + 1) := by omega
    rw [mapBlocks_cons hblock, mapBlocks_cons hblock, ← ih hrest, Nat.mul_succ, Nat.add_comm _ 2,
      mapBlocks_append (hf first block hblock), hnumber]

/-- A layer of blocks, and behind it one of blocks of twice the size. -/
theorem mapBlocks_pairs (hg : ∀ c block, block.length = size → (g c block).length = size)
    (ha : a.length = count * (2 * size)) :
    mapBlocks f (2 * size) count first (mapBlocks g size (2 * count) (2 * first) a) =
      mapBlocks (fun c block => f c (mapBlocks g size 2 (2 * c) block)) (2 * size) count first a := by
  induction count generalizing first a with
  | zero => rfl
  | succ count ih =>
    rcases exists_block ha with ⟨block, rest, rfl, hblock, hrest⟩
    have hnumber : 2 * first + 2 = 2 * (first + 1) := by omega
    have hpair : (mapBlocks g size 2 (2 * first) block).length = 2 * size :=
      length_mapBlocks hg hblock
    rw [Nat.mul_succ, Nat.add_comm _ 2, mapBlocks_append hblock, hnumber, mapBlocks_cons hpair,
      ih hrest, mapBlocks_cons hblock]

end Blocks

/-! ## The forward pass -/

variable {κ : Type} [Add κ] [Sub κ] [Mul κ] {t : Nat → κ} {depth count : Nat} {a : List κ}

theorem length_combineHalves (x : κ) (ha : a.length = 2 * 2 ^ depth) :
    (combineHalves x (2 ^ depth) a).length = 2 * 2 ^ depth := by
  have hhalf : 2 * 2 ^ depth - 2 ^ depth = 2 ^ depth := by omega
  simp only [combineHalves, List.length_append, List.length_zipWith, List.length_map,
    List.length_take, List.length_drop, ha, hhalf]
  omega

/-- The pass over a block is the butterfly of its halves and the passes over both of them. -/
theorem mapBlocks_combineHalves (c : Nat) (ha : a.length = 2 * 2 ^ depth) :
    mapBlocks (forward t depth) (2 ^ depth) 2 (2 * c) (combineHalves (t c) (2 ^ depth) a) =
      forward t (depth + 1) c a := by
  rcases exists_halves (ha.trans (pow_succ' 2 depth).symm) with ⟨low, high, rfl, hlow, hhigh⟩
  let sums := List.zipWith (· + ·) low (high.map (t c * ·))
  let differences := List.zipWith (· - ·) low (high.map (t c * ·))
  have hsums : sums.length = 2 ^ depth := by simp [sums, hlow, hhigh]
  have hdifferences : differences.length = 2 ^ depth := by simp [differences, hlow, hhigh]
  have hcombine : combineHalves (t c) (2 ^ depth) (low ++ high) = sums ++ differences := by
    rw [combineHalves, List.take_left' hlow, List.drop_left' hlow]
  rw [hcombine, mapBlocks_cons hsums, mapBlocks_one hdifferences, forward_append t c hlow]

/-- Going through the layers is passing over each block. -/
theorem forwardLayers_eq_mapBlocks (ha : a.length = count * 2 ^ depth) :
    forwardLayers t depth count a = mapBlocks (forward t depth) (2 ^ depth) count 0 a := by
  induction depth generalizing count a with
  | zero => exact mapBlocks_id.symm
  | succ depth ih =>
    have hshift : 1 <<< (depth + 1) = 2 * 2 ^ depth := by rw [Nat.one_shiftLeft, pow_succ']
    have hlayer : ∀ c block, block.length = 2 * 2 ^ depth →
        (combineHalves (t c) (2 ^ depth) block).length = 2 * 2 ^ depth :=
      fun c _ hblock => length_combineHalves (t c) hblock
    rw [pow_succ'] at ha ⊢
    have hcombined : (mapBlocks (fun c => combineHalves (t c) (2 ^ depth)) (2 * 2 ^ depth) count 0
        a).length = count * (2 * 2 ^ depth) :=
      length_mapBlocks hlayer ha
    calc
      forwardLayers t (depth + 1) count a
          = forwardLayers t depth (2 * count)
              (mapBlocks (fun c => combineHalves (t c) (2 ^ depth)) (2 * 2 ^ depth) count 0 a) := by
        rw [forwardLayers, hshift, Nat.one_shiftLeft]
      _ = mapBlocks (forward t depth) (2 ^ depth) (2 * count) (2 * 0)
            (mapBlocks (fun c => combineHalves (t c) (2 ^ depth)) (2 * 2 ^ depth) count 0 a) :=
        ih (by rw [hcombined]; ring)
      _ = mapBlocks (forward t (depth + 1)) (2 * 2 ^ depth) count 0 a := by
        rw [mapBlocks_halves hlayer ha]
        exact mapBlocks_congr (fun c _ hblock => mapBlocks_combineHalves c hblock) ha

/-- The layers of a list that is one block make up the forward pass over it. -/
theorem forwardLayers_eq_forward (ha : a.length = 2 ^ depth) :
    forwardLayers t depth 1 a = forward t depth 0 a := by
  rw [forwardLayers_eq_mapBlocks (by simpa using ha), mapBlocks_one ha]

end TorusFHE.Butterfly
