import Mathlib.Data.Rat.Defs
import Mathlib.Tactic.NormNum
import TorusFHE.Fourier.InPlace
import TorusFHE.Proofs.Fault
import TorusFHE.Proofs.Fourier.Layers

/-!
# Passes in place and block by block

A loop over layers does the butterflies of a pass in another order than the pass itself, which
finishes a block before it turns to the next one.  Each layer takes as many factors as it has blocks,
so no block goes without its factor, and the block numbered `c` meets the factor `c` in both
directions.  Hence the loops compute what the passes compute, and undo each other as these do.

* `Butterfly.zipBlocks_eq_mapBlocks`: a layer in step with a list of factors;
* `Butterfly.forwardInPlace_eq_forward` and `Butterfly.backwardInPlace_eq_backward`: the loops;
* `Butterfly.backwardInPlace_forwardInPlace`: the backward loop after the forward one.
-/

namespace TorusFHE.Butterfly

/-! ## Blocks in step with factors -/

/-- As long as there is a factor for each block, only the numbers of the blocks matter. -/
theorem zipBlocks_eq_mapBlocks {κ : Type} {f : κ → List κ → List κ} {t : Nat → κ}
    {size count first : Nat} {factors a : List κ} (hsize : 0 < size)
    (ha : a.length = count * size) (ht : ∀ c < count, factors[c]? = some (t (first + c))) :
    zipBlocks f size factors a = mapBlocks (fun c => f (t c)) size count first a := by
  induction count generalizing first factors a with
  | zero =>
    obtain rfl : a = [] := List.length_eq_zero_iff.1 (by simpa using ha)
    cases factors <;> rfl
  | succ count ih =>
    rcases exists_block ha with ⟨block, rest, rfl, hblock, hrest⟩
    -- There is a first factor, and the others are those of the other blocks.
    have hfirst : factors[0]? = some (t first) := ht 0 (Nat.succ_pos count)
    cases factors with
    | nil => simp at hfirst
    | cons x tail =>
      obtain rfl : x = t first := by simpa using hfirst
      have htail : ∀ c < count, tail[c]? = some (t (first + 1 + c)) := by
        intro c hc
        have h := ht (c + 1) (Nat.succ_lt_succ hc)
        rwa [List.getElem?_cons_succ, Nat.add_comm c 1, ← Nat.add_assoc] at h
      cases block with
      | nil => exact absurd hblock hsize.ne
      | cons y block =>
        rw [mapBlocks_cons hblock, ← ih hrest htail, List.cons_append, zipBlocks,
          ← List.cons_append, List.take_left' hblock, List.drop_left' hblock]
        simp

/-- Half as many factors as entries are enough for each layer. -/
theorem getElem?_factors {κ : Type} {t : Nat → κ} {depth count : Nat} {a factors : List κ}
    (ha : a.length = count * 2 ^ (depth + 1))
    (ht : ∀ c, 2 * c < a.length → factors[c]? = some (t c)) :
    ∀ c < count, factors[c]? = some (t (0 + c)) := by
  intro c hc
  have hsize : count * 2 ≤ count * 2 ^ (depth + 1) :=
    Nat.mul_le_mul_left _ (Nat.pow_le_pow_right Nat.two_pos (Nat.succ_pos depth))
  rw [Nat.zero_add]
  exact ht c (by omega)

section Loops

variable {κ : Type} [Add κ] [Sub κ] [Mul κ] {t u : Nat → κ} {depth count : Nat}
  {a factors : List κ}

/-! ## The forward loop -/

theorem forwardLayer_eq_mapBlocks (ha : a.length = count * 2 ^ (depth + 1))
    (ht : ∀ c, 2 * c < a.length → factors[c]? = some (t c)) :
    forwardLayer factors depth a =
      mapBlocks (fun c => combineHalves (t c) (2 ^ depth)) (2 * 2 ^ depth) count 0 a := by
  have hblocks : a.length = count * (2 * 2 ^ depth) := by rw [ha, pow_succ']
  rw [forwardLayer, Nat.one_shiftLeft]
  exact zipBlocks_eq_mapBlocks (by positivity) hblocks (getElem?_factors ha ht)

/-- The loop from the layer of the largest blocks down goes through all layers. -/
theorem foldl_forwardLayer (ha : a.length = count * 2 ^ depth)
    (ht : ∀ c, 2 * c < a.length → factors[c]? = some (t c)) :
    (List.range depth).reverse.foldl (fun a layer => forwardLayer factors layer a) a =
      forwardLayers t depth count a := by
  induction depth generalizing count a with
  | zero => rfl
  | succ depth ih =>
    have hlayer := forwardLayer_eq_mapBlocks ha ht
    have hlength : (forwardLayer factors depth a).length = a.length := by
      rw [hlayer, ha, pow_succ']
      exact length_mapBlocks (fun c _ hblock => length_combineHalves (t c) hblock)
        (by rw [ha, pow_succ'])
    -- What is left is the same loop over twice as many blocks of half the size.
    have hnext : (forwardLayer factors depth a).length = 2 * count * 2 ^ depth := by
      rw [hlength, ha]
      ring
    rw [List.range_succ, List.reverse_concat, List.foldl_cons, ih hnext (by rwa [hlength]), hlayer,
      forwardLayers, Nat.one_shiftLeft, Nat.one_shiftLeft, pow_succ']

/-- On a whole list the forward loop is the forward pass. -/
theorem forwardInPlace_eq_forward (ha : a.length = 2 ^ depth)
    (ht : ∀ c < 2 ^ depth, factors[c]? = some (t c)) :
    forwardInPlace factors a = forward t depth 0 a := by
  have hblock : a.length = 1 * 2 ^ depth := by rw [ha, one_mul]
  rw [forwardInPlace, ha, Nat.log2_two_pow,
    foldl_forwardLayer hblock (fun c hc => ht c (by omega)), forwardLayers_eq_forward ha]

/-! ## The backward loop -/

theorem backwardLayer_eq_mapBlocks (ha : a.length = count * 2 ^ (depth + 1))
    (hu : ∀ c, 2 * c < a.length → factors[c]? = some (u c)) :
    backwardLayer factors depth a =
      mapBlocks (fun c => recombineHalves (u c) (2 ^ depth)) (2 * 2 ^ depth) count 0 a := by
  have hblocks : a.length = count * (2 * 2 ^ depth) := by rw [ha, pow_succ']
  rw [backwardLayer, Nat.one_shiftLeft]
  exact zipBlocks_eq_mapBlocks (by positivity) hblocks (getElem?_factors ha hu)

/-- The pass over a block is the passes over its halves and the butterfly of the results. -/
theorem recombineHalves_mapBlocks (c : Nat) (ha : a.length = 2 * 2 ^ depth) :
    recombineHalves (u c) (2 ^ depth) (mapBlocks (backward u depth) (2 ^ depth) 2 (2 * c) a) =
      backward u (depth + 1) c a := by
  rcases exists_halves (ha.trans (pow_succ' 2 depth).symm) with ⟨low, high, rfl, hlow, hhigh⟩
  have hfirst : (backward u depth (2 * c) low).length = 2 ^ depth := length_backward u _ hlow
  rw [mapBlocks_cons hlow, mapBlocks_one hhigh, recombineHalves, List.take_left' hfirst,
    List.drop_left' hfirst, backward_append u c hlow]

/-- The loop from the layer of pairs up passes over every block. -/
theorem foldl_backwardLayer (ha : a.length = count * 2 ^ depth)
    (hu : ∀ c, 2 * c < a.length → factors[c]? = some (u c)) :
    (List.range depth).foldl (fun a layer => backwardLayer factors layer a) a =
      mapBlocks (backward u depth) (2 ^ depth) count 0 a := by
  induction depth generalizing count with
  | zero => exact mapBlocks_id.symm
  | succ depth ih =>
    have hhalves : a.length = 2 * count * 2 ^ depth := by
      rw [ha]
      ring
    have hblocks : a.length = count * (2 * 2 ^ depth) := by rw [ha, pow_succ']
    have hpass : ∀ c block, block.length = 2 ^ depth →
        (backward u depth c block).length = 2 ^ depth :=
      fun c _ hblock => length_backward u c hblock
    -- The last layer joins the blocks in pairs, after the loop below has passed over each of them.
    have hbelow : (mapBlocks (backward u depth) (2 ^ depth) (2 * count) 0 a).length = a.length :=
      (length_mapBlocks hpass hhalves).trans hhalves.symm
    calc
      (List.range (depth + 1)).foldl (fun a layer => backwardLayer factors layer a) a
          = backwardLayer factors depth
              (mapBlocks (backward u depth) (2 ^ depth) (2 * count) 0 a) := by
        rw [List.range_succ, List.foldl_concat, ih hhalves]
      _ = mapBlocks (fun c => recombineHalves (u c) (2 ^ depth)) (2 * 2 ^ depth) count 0
            (mapBlocks (backward u depth) (2 ^ depth) (2 * count) (2 * 0) a) :=
        backwardLayer_eq_mapBlocks (hbelow.trans ha) (by rwa [hbelow])
      _ = mapBlocks (backward u (depth + 1)) (2 ^ (depth + 1)) count 0 a := by
        rw [mapBlocks_pairs hpass hblocks, pow_succ']
        exact mapBlocks_congr (fun c _ hblock => recombineHalves_mapBlocks c hblock) hblocks

/-- On a whole list the backward loop is the backward pass. -/
theorem backwardInPlace_eq_backward (ha : a.length = 2 ^ depth)
    (hu : ∀ c < 2 ^ depth, factors[c]? = some (u c)) :
    backwardInPlace factors a = backward u depth 0 a := by
  have hblock : a.length = 1 * 2 ^ depth := by rw [ha, one_mul]
  rw [backwardInPlace, ha, Nat.log2_two_pow,
    foldl_backwardLayer hblock (fun c hc => hu c (by omega)), mapBlocks_one ha]

end Loops

/-! ## Both loops -/

/-- The backward loop undoes the forward one up to the number of points, whatever the factors, as
long as those of the two are inverse to each other; so do the passes that the loops compute. -/
theorem backwardInPlace_forwardInPlace {κ : Type} [CommRing κ] {m : Nat} {a t u : List κ}
    (hm : m.isPowerOfTwo) (ha : a.length = m) (ht : t.length = m)
    (htu : List.Forall₂ (fun x y => x * y = 1) t u) :
    backwardInPlace u (forwardInPlace t a) = a.map ((m : κ) * ·) ∧
      forwardInPlace t a = forward (fun c => t.getD c 0) m.log2 0 a ∧
      backwardInPlace u (forwardInPlace t a) =
        backward (fun c => u.getD c 0) m.log2 0 (forward (fun c => t.getD c 0) m.log2 0 a) := by
  rcases hm with ⟨depth, rfl⟩
  have hu : u.length = 2 ^ depth := htu.length_eq.symm.trans ht
  have hinverse : ∀ c < 2 ^ depth, t.getD c 0 * u.getD c 0 = 1 := by
    intro c hc
    rcases exists_getElem?_of_forall₂ htu (getElem?_eq_some_getD (hu ▸ hc) 0) with ⟨x, hx, hxy⟩
    simpa [List.getD_eq_getElem?_getD, hx] using hxy
  have hforward : forwardInPlace t a = forward (fun c => t.getD c 0) depth 0 a :=
    forwardInPlace_eq_forward ha fun c hc => getElem?_eq_some_getD (ht ▸ hc) 0
  have hbackward : backwardInPlace u (forwardInPlace t a) =
      backward (fun c => u.getD c 0) depth 0 (forward (fun c => t.getD c 0) depth 0 a) := by
    rw [hforward]
    exact backwardInPlace_eq_backward (length_forward _ 0 ha)
      fun c hc => getElem?_eq_some_getD (hu ▸ hc) 0
  rw [Nat.log2_two_pow]
  refine ⟨?_, hforward, hbackward⟩
  rw [hbackward, backward_forward hinverse ha (by omega), Nat.cast_pow, Nat.cast_ofNat]

/-- Four points over the rational numbers, with factors none of which is a root of unity. -/
theorem backwardInPlace_forwardInPlace_four_points :
    let a : List ℚ := [1, -2, 3, 5]
    let t : List ℚ := [2, 3, 5, 7]
    let u : List ℚ := [1 / 2, 1 / 3, 1 / 5, 1 / 7]
    Nat.isPowerOfTwo 4 ∧ a.length = 4 ∧ t.length = 4 ∧
      List.Forall₂ (fun x y => x * y = 1) t u ∧
      forwardInPlace t a = [23, -9, -41, 31] ∧
      backwardInPlace u (forwardInPlace t a) = [4, -8, 12, 20] := by
  intro a t u
  have hpower : Nat.isPowerOfTwo 4 := ⟨2, rfl⟩
  have hinverse : List.Forall₂ (fun x y => x * y = 1) t u := by
    simp [t, u]
  rcases backwardInPlace_forwardInPlace (a := a) hpower rfl rfl hinverse with ⟨hresult, hforward, -⟩
  refine ⟨hpower, rfl, rfl, hinverse, ?_, ?_⟩
  · rw [hforward]
    decide +kernel
  · rw [hresult]
    norm_num [a]

end TorusFHE.Butterfly
