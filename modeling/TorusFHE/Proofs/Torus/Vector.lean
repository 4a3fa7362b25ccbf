import Mathlib.Algebra.BigOperators.Intervals
import TorusFHE.Proofs.Fault
import TorusFHE.Proofs.Torus.Ring
import TorusFHE.Torus.Vector

/-!
# Linear algebra of torus vectors

`TorusVec.inner` is the sum of entrywise products, for any two vectors.  The dot product of the
library is this sum wherever the lengths agree, and the operations on vectors are linear in it:

* `TorusVec.dot_eq_ok_iff`: when there is a dot product, and what it is;
* `TorusVec.weightedSum_inner`: a weighted sum of vectors of one length exists, and its product with
  a vector is the weighted sum of the products.
-/

namespace TorusFHE

namespace TorusVec

/-- The sum of the entrywise products, as far as both vectors reach. -/
def inner (v w : TorusVec) : Torus :=
  (List.zipWith (· * ·) v w).sum

variable {v w s : TorusVec}

@[simp] theorem inner_nil_left (w : TorusVec) : inner [] w = 0 := by
  simp [inner]

@[simp] theorem inner_nil_right (v : TorusVec) : inner v [] = 0 := by
  simp [inner]

@[simp] theorem inner_cons_cons (x y : Torus) (v w : TorusVec) :
    inner (x :: v) (y :: w) = x * y + inner v w := by
  simp [inner]

theorem inner_comm (v w : TorusVec) : inner v w = inner w v := by
  rw [inner, List.zipWith_comm]
  simp only [mul_comm, inner]

theorem inner_append {v' w' : TorusVec} (h : v.length = w.length) :
    inner (v ++ v') (w ++ w') = inner v w + inner v' w' := by
  simp [inner, List.zipWith_append h]

theorem inner_reverse (h : v.length = w.length) : inner v.reverse w = inner v w.reverse := by
  have hrev : (List.zipWith (· * ·) v w.reverse).reverse =
      List.zipWith (· * ·) v.reverse w.reverse.reverse :=
    List.reverse_zipWith (by simpa using h)
  rw [List.reverse_reverse] at hrev
  rw [inner, inner, ← hrev, List.sum_reverse]

theorem total_eq_sum (v : TorusVec) : total v = List.sum v :=
  List.sum_eq_foldl.symm

/-- There is a dot product exactly if the lengths agree, and it is the sum of products. -/
theorem dot_eq_ok_iff {x : Torus} :
    dot v w = .ok x ↔ v.length = w.length ∧ x = inner v w := by
  simp only [dot, mul, bind_eq_ok_iff, zipExact_eq_ok_iff, total_eq_sum]
  constructor
  · rintro ⟨_, ⟨h, rfl⟩, hx⟩
    exact ⟨h, (Except.ok.inj hx).symm⟩
  · rintro ⟨h, rfl⟩
    exact ⟨_, ⟨h, rfl⟩, rfl⟩

/-- Entries of vectors that are combined one by one. -/
theorem getD_zipWith {f : Torus → Torus → Torus} {t : Nat} (hv : t < v.length)
    (hw : t < w.length) :
    (List.zipWith f v w).getD t 0 = f (v.getD t 0) (w.getD t 0) := by
  simp [List.getD_eq_getElem?_getD, hv, hw]

/-! ## Sums over positions -/

theorem inner_map_eq_sum_range (f : Torus → Torus) (h : v.length = w.length) :
    inner (v.map f) w = ∑ i ∈ Finset.range v.length, f (v.getD i 0) * w.getD i 0 := by
  induction v generalizing w with
  | nil => simp
  | cons x v ih =>
    cases w with
    | nil => simp at h
    | cons y w =>
      rw [List.map_cons, inner_cons_cons, ih (by simpa using h), List.length_cons,
        Finset.sum_range_succ']
      simp [add_comm]

/-- In the product with a vector made of blocks of `d` entries, entry `j` of block `i` meets entry
`i * d + j`. -/
theorem inner_flatMap_eq_sum_range {d : Nat} {f : Torus → TorusVec} (hf : ∀ x, (f x).length = d)
    (h : w.length = v.length * d) :
    inner (v.flatMap f) w =
      ∑ i ∈ Finset.range v.length, ∑ j ∈ Finset.range d,
        (f (v.getD i 0)).getD j 0 * w.getD (i * d + j) 0 := by
  induction v generalizing w with
  | nil => simp
  | cons x v ih =>
    have hlen : w.length = d + v.length * d := by
      rw [h, List.length_cons]
      ring
    have htake : (f x).length = (w.take d).length := by
      rw [hf, List.length_take]
      omega
    -- The first block meets the first `d` entries, the others are shifted by `d`.
    have hhead : inner (f x) (w.take d) =
        ∑ j ∈ Finset.range d, (f x).getD j 0 * w.getD j 0 := by
      have hsum := inner_map_eq_sum_range id htake
      rw [List.map_id, hf] at hsum
      rw [hsum]
      refine Finset.sum_congr rfl fun j hj => ?_
      have hjd : j < d := Finset.mem_range.1 hj
      simp [List.getD_eq_getElem?_getD, hjd]
    have hshift : ∀ i j, (w.drop d).getD (i * d + j) 0 = w.getD ((i + 1) * d + j) 0 := by
      intro i j
      simp only [List.getD_eq_getElem?_getD, List.getElem?_drop]
      congr 2
      ring
    have htail := ih (w := w.drop d) (by rw [List.length_drop]; omega)
    simp only [hshift] at htail
    calc
      inner ((x :: v).flatMap f) w
          = inner (f x ++ v.flatMap f) (w.take d ++ w.drop d) := by
        rw [List.flatMap_cons, List.take_append_drop]
      _ = inner (f x) (w.take d) + inner (v.flatMap f) (w.drop d) := inner_append htake
      _ = _ := by
        rw [hhead, htail, List.length_cons, Finset.sum_range_succ']
        simp [add_comm]

/-! ## Linearity -/

theorem inner_zeros (n : Nat) (s : TorusVec) : inner (zeros n) s = 0 := by
  induction n generalizing s with
  | zero => rfl
  | succ n ih =>
    cases s with
    | nil => simp
    | cons y s => simpa [zeros, List.replicate_succ] using ih s

theorem inner_neg (v s : TorusVec) : inner v.neg s = -inner v s := by
  induction v generalizing s with
  | nil => simp [neg]
  | cons x v ih =>
    cases s with
    | nil => simp
    | cons y s =>
      have htail : inner (List.map (- ·) v) s = -inner v s := ih s
      simp only [neg, List.map_cons, inner_cons_cons, htail]
      ring

theorem inner_scale (v : TorusVec) (c : Torus) (s : TorusVec) :
    inner (v.scale c) s = c * inner v s := by
  induction v generalizing s with
  | nil => simp [scale]
  | cons x v ih =>
    cases s with
    | nil => simp
    | cons y s =>
      have htail : inner (List.map (· * c) v) s = c * inner v s := ih s
      simp only [scale, List.map_cons, inner_cons_cons, htail]
      ring

theorem inner_map_sub (f f' : Torus → Torus) (v s : TorusVec) :
    inner (v.map fun x => f x - f' x) s = inner (v.map f) s - inner (v.map f') s := by
  induction v generalizing s with
  | nil => simp
  | cons x v ih =>
    cases s with
    | nil => simp
    | cons y s =>
      simp only [List.map_cons, inner_cons_cons, ih]
      ring

theorem inner_zipWith_add (h : v.length = w.length) (s : TorusVec) :
    inner (List.zipWith (· + ·) v w) s = inner v s + inner w s := by
  induction v generalizing w s with
  | nil =>
    have hw : w = [] := List.length_eq_zero_iff.1 h.symm
    simp [hw]
  | cons x v ih =>
    cases w with
    | nil => simp at h
    | cons y w =>
      cases s with
      | nil => simp
      | cons z s =>
        simp only [List.zipWith_cons_cons, inner_cons_cons, ih (by simpa using h) s]
        ring

theorem inner_zipWith_add_right (h : v.length = w.length) (s : TorusVec) :
    inner s (List.zipWith (· + ·) v w) = inner s v + inner s w := by
  rw [inner_comm, inner_zipWith_add h, inner_comm v, inner_comm w]

theorem inner_zipWith_sub_right (h : v.length = w.length) (s : TorusVec) :
    inner s (List.zipWith (· - ·) v w) = inner s v - inner s w := by
  have hsum : List.zipWith (· + ·) (List.zipWith (· - ·) v w) w = v := by
    apply List.ext_getElem
    · simp [h]
    · intro i _ _
      simp
  have hadd : inner s v = inner s (List.zipWith (· - ·) v w) + inner s w := by
    rw [← inner_zipWith_add_right (by simp [h]), hsum]
  rw [hadd, add_sub_cancel_right]

/-- Adding zeros changes nothing. -/
theorem zipWith_zeros_add {n : Nat} (h : v.length = n) :
    List.zipWith (· + ·) (zeros n) v = v := by
  subst h
  induction v with
  | nil => rfl
  | cons x v ih =>
    rw [zeros] at ih ⊢
    rw [List.length_cons, List.replicate_succ, List.zipWith_cons_cons, ih, zero_add]

/-- Vectors can be added exactly if their lengths agree. -/
theorem add_eq_ok_iff {x : TorusVec} :
    add v w = .ok x ↔ v.length = w.length ∧ x = List.zipWith (· + ·) v w :=
  zipExact_eq_ok_iff

/-! ## Sums of vectors -/

variable {n : Nat}

/-- Adding vectors of one length to another of that length adds their products. -/
theorem foldlM_add {vs : List TorusVec} (hvs : ∀ v ∈ vs, v.length = n) {acc : TorusVec}
    (hacc : acc.length = n) :
    ∃ x, vs.foldlM add acc = .ok x ∧ x.length = n ∧
      ∀ s, inner x s = inner acc s + (vs.map (inner · s)).sum := by
  induction vs generalizing acc with
  | nil => exact ⟨acc, rfl, hacc, by simp⟩
  | cons v vs ih =>
    have hv : acc.length = v.length := by rw [hacc, hvs v (by simp)]
    have hadd : add acc v = .ok (List.zipWith (· + ·) acc v) := add_eq_ok_iff.2 ⟨hv, rfl⟩
    have hvs' : ∀ u ∈ vs, u.length = n := fun u hu => hvs u (by simp [hu])
    -- The sum so far keeps its length, so that the next vector can be added.
    have hsum : (List.zipWith (· + ·) acc v).length = n := by simp [hacc, ← hv]
    rcases ih hvs' hsum with ⟨x, hx, hlen, hinner⟩
    refine ⟨x, by simp [List.foldlM_cons, hadd, hx], hlen, ?_⟩
    intro s
    rw [hinner, inner_zipWith_add hv, List.map_cons, List.sum_cons, add_assoc]

/-- A weighted sum of vectors of one length exists, and its product with a vector is the weighted
sum of the products. -/
theorem weightedSum_inner {vs : List TorusVec} {weights : TorusVec} (hne : vs ≠ [])
    (hvs : ∀ v ∈ vs, v.length = n) (hlen : vs.length = weights.length) :
    ∃ x, weightedSum vs weights = .ok x ∧ x.length = n ∧
      ∀ s, inner x s = inner weights (vs.map (inner · s)) := by
  cases vs with
  | nil => exact absurd rfl hne
  | cons v vs =>
    cases weights with
    | nil => simp at hlen
    | cons c weights =>
      have hlen' : vs.length = weights.length := by simpa using hlen
      have hscaled : ∀ u ∈ List.zipWith scale vs weights, u.length = n := by
        intro u hu
        rcases List.mem_iff_getElem.1 hu with ⟨i, hi, rfl⟩
        simp [scale, hvs]
      have hfirst : (TorusVec.scale v c).length = n := by simp [scale, hvs]
      rcases foldlM_add hscaled hfirst with ⟨x, hx, hxlen, hinner⟩
      refine ⟨x, ?_, hxlen, ?_⟩
      · simp [weightedSum, zipExact_of_length hlen, sum, hx]
      · intro s
        have htail : ((List.zipWith scale vs weights).map (inner · s)).sum =
            inner weights (vs.map (inner · s)) := by
          simp only [List.map_zipWith, inner_scale]
          rw [inner, List.zipWith_map_right, List.zipWith_comm]
        rw [hinner, htail, inner_scale, List.map_cons, inner_cons_cons]

end TorusVec

end TorusFHE
