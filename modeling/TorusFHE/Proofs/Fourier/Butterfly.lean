import Mathlib.Algebra.BigOperators.Intervals
import Mathlib.Tactic.LinearCombination
import Mathlib.Tactic.Ring
import TorusFHE.Fourier.Butterfly

/-!
# What butterflies compute

A pass keeps the number of points.  Over a commutative ring the backward pass undoes the forward one
up to the number of points, whatever the twiddle factors, as long as those of the two passes are
inverse to each other.

If every factor squares to that of the block above it, with a sign for the second half, the forward
pass evaluates: a block of `2 ^ depth` entries is a polynomial, and the entry at each position of
the result is its value at the square of the factor of that position.

* `Butterfly.backward_forward`: the backward pass after the forward one;
* `Butterfly.IsTwiddle` and `Butterfly.getD_forward`: the forward pass as evaluation.
-/

namespace TorusFHE.Butterfly

/-! ## Halves of a block -/

theorem exists_halves {κ : Type} {a : List κ} {depth : Nat} (ha : a.length = 2 ^ (depth + 1)) :
    ∃ low high, a = low ++ high ∧ low.length = 2 ^ depth ∧ high.length = 2 ^ depth := by
  rw [pow_succ] at ha
  refine ⟨a.take (2 ^ depth), a.drop (2 ^ depth), (List.take_append_drop _ _).symm, ?_, ?_⟩
  · rw [List.length_take]
    omega
  · rw [List.length_drop]
    omega

section Sizes

variable {κ : Type} [Add κ] [Sub κ] [Mul κ] {depth : Nat} {low high : List κ}

@[simp] theorem forward_zero (t : Nat → κ) (c : Nat) (a : List κ) : forward t 0 c a = a :=
  rfl

/-- A forward pass combines the halves of a block and goes on with both results. -/
theorem forward_append (t : Nat → κ) (c : Nat) (hlow : low.length = 2 ^ depth) :
    forward t (depth + 1) c (low ++ high) =
      forward t depth (2 * c) (List.zipWith (· + ·) low (high.map (t c * ·)))
        ++ forward t depth (2 * c + 1) (List.zipWith (· - ·) low (high.map (t c * ·))) := by
  rw [forward, Nat.one_shiftLeft, List.take_left' hlow, List.drop_left' hlow]

@[simp] theorem backward_zero (u : Nat → κ) (c : Nat) (a : List κ) : backward u 0 c a = a :=
  rfl

/-- A backward pass goes over the halves of a block and combines the results. -/
theorem backward_append (u : Nat → κ) (c : Nat) (hlow : low.length = 2 ^ depth) :
    backward u (depth + 1) c (low ++ high) =
      List.zipWith (· + ·) (backward u depth (2 * c) low) (backward u depth (2 * c + 1) high)
        ++ List.zipWith (fun x y => (x - y) * u c) (backward u depth (2 * c) low)
          (backward u depth (2 * c + 1) high) := by
  rw [backward, Nat.one_shiftLeft, List.take_left' hlow, List.drop_left' hlow]

theorem length_forward (t : Nat → κ) (c : Nat) {a : List κ} (ha : a.length = 2 ^ depth) :
    (forward t depth c a).length = 2 ^ depth := by
  induction depth generalizing c a with
  | zero => exact ha
  | succ depth ih =>
    rcases exists_halves ha with ⟨low, high, rfl, hlow, hhigh⟩
    rw [forward_append t c hlow, List.length_append, ih _ (by simp [hlow, hhigh]),
      ih _ (by simp [hlow, hhigh]), pow_succ, mul_two]

theorem length_backward (u : Nat → κ) (c : Nat) {a : List κ} (ha : a.length = 2 ^ depth) :
    (backward u depth c a).length = 2 ^ depth := by
  induction depth generalizing c a with
  | zero => exact ha
  | succ depth ih =>
    rcases exists_halves ha with ⟨low, high, rfl, hlow, hhigh⟩
    rw [backward_append u c hlow, List.length_append, List.length_zipWith, List.length_zipWith,
      ih _ hlow, ih _ hhigh, Nat.min_self, pow_succ, mul_two]

end Sizes

variable {κ : Type} [CommRing κ] {t u : Nat → κ} {m depth c : Nat} {low high : List κ}

/-- The blocks in the halves of a block are numbered within the same bound as those in the block. -/
theorem halves_le {bound : Nat} (hc : (c + 1) * 2 ^ (depth + 1) ≤ bound) :
    (2 * c + 1) * 2 ^ depth ≤ bound ∧ (2 * c + 1 + 1) * 2 ^ depth ≤ bound := by
  have hdouble : (c + 1) * 2 ^ (depth + 1) = (2 * c + 1 + 1) * 2 ^ depth := by ring
  have hsecond : (2 * c + 1 + 1) * 2 ^ depth ≤ bound := hdouble ▸ hc
  exact ⟨(Nat.mul_le_mul_right _ (Nat.le_succ _)).trans hsecond, hsecond⟩

/-! ## The backward pass -/

/-- On the results of a forward butterfly, the sum of a backward one is the first operand twice. -/
theorem zipWith_add_butterfly (x s : κ) (h : low.length = high.length) :
    List.zipWith (· + ·)
        ((List.zipWith (· + ·) low (high.map (x * ·))).map (s * ·))
        ((List.zipWith (· - ·) low (high.map (x * ·))).map (s * ·)) =
      low.map (s * 2 * ·) := by
  apply List.ext_getElem
  · simp [h]
  · intro i _ _
    simp only [List.getElem_zipWith, List.getElem_map]
    ring

/-- Its difference is the second operand twice, once the factors cancel. -/
theorem zipWith_sub_butterfly {x y : κ} (hxy : x * y = 1) (s : κ)
    (h : low.length = high.length) :
    List.zipWith (fun p q => (p - q) * y)
        ((List.zipWith (· + ·) low (high.map (x * ·))).map (s * ·))
        ((List.zipWith (· - ·) low (high.map (x * ·))).map (s * ·)) =
      high.map (s * 2 * ·) := by
  apply List.ext_getElem
  · simp [h]
  · intro i _ hi
    have hi : i < high.length := by simpa using hi
    simp only [List.getElem_zipWith, List.getElem_map]
    linear_combination 2 * s * high[i] * hxy

/-- The backward pass over the results of the forward one gives every entry back, as many times as
there are points.  The factors need not be roots of unity. -/
theorem backward_forward (htu : ∀ b < m, t b * u b = 1) {a : List κ} (ha : a.length = 2 ^ depth)
    (hc : (c + 1) * 2 ^ depth ≤ 2 * m) :
    backward u depth c (forward t depth c a) = a.map ((2 : κ) ^ depth * ·) := by
  induction depth generalizing c a with
  | zero => simp
  | succ depth ih =>
    rcases exists_halves ha with ⟨low, high, rfl, hlow, hhigh⟩
    rcases halves_le hc with ⟨hfirst, hsecond⟩
    have hblock : c < m := by
      have hone : 2 * c + 1 + 1 ≤ (2 * c + 1 + 1) * 2 ^ depth :=
        Nat.le_mul_of_pos_right _ (Nat.two_pow_pos depth)
      omega
    let sums := List.zipWith (· + ·) low (high.map (t c * ·))
    let differences := List.zipWith (· - ·) low (high.map (t c * ·))
    have hsums : sums.length = 2 ^ depth := by simp [sums, hlow, hhigh]
    have hdifferences : differences.length = 2 ^ depth := by simp [differences, hlow, hhigh]
    have hequal : low.length = high.length := hlow.trans hhigh.symm
    calc
      backward u (depth + 1) c (forward t (depth + 1) c (low ++ high))
          = backward u (depth + 1) c
              (forward t depth (2 * c) sums ++ forward t depth (2 * c + 1) differences) := by
        rw [forward_append t c hlow]
      _ = low.map ((2 : κ) ^ depth * 2 * ·) ++ high.map ((2 : κ) ^ depth * 2 * ·) := by
        rw [backward_append u c (length_forward t _ hsums), ih hsums hfirst,
          ih hdifferences hsecond, zipWith_add_butterfly _ _ hequal,
          zipWith_sub_butterfly (htu c hblock) _ hequal]
      _ = (low ++ high).map ((2 : κ) ^ (depth + 1) * ·) := by
        rw [List.map_append, pow_succ]

/-! ## The forward pass as evaluation -/

/-- Every factor squares to that of the block above it, negated if its own block is a second
half. -/
def IsTwiddle (t : Nat → κ) (m : Nat) : Prop :=
  ∀ k < m, t k ^ 2 = (-1) ^ k * t (k / 2)

/-- Repeated squares of a factor are the factors of the blocks further above. -/
theorem IsTwiddle.pow_two_pow {k : Nat} (ht : IsTwiddle t m) (hk : k < m) (d : Nat) :
    (t k ^ 2) ^ 2 ^ d = (-1) ^ (k / 2 ^ d) * t (k / 2 ^ d / 2) := by
  induction d with
  | zero => simpa using ht k hk
  | succ d ih =>
    have habove : k / 2 ^ d / 2 = k / 2 ^ (d + 1) := by
      rw [Nat.div_div_eq_div_mul, ← pow_succ]
    have hlt : k / 2 ^ (d + 1) < m := (Nat.div_le_self _ _).trans_lt hk
    have hsign : ((-1 : κ) ^ (k / 2 ^ d)) ^ 2 = 1 := by
      rw [← pow_mul, mul_comm, pow_mul, neg_one_sq, one_pow]
    calc
      (t k ^ 2) ^ 2 ^ (d + 1) = ((t k ^ 2) ^ 2 ^ d) ^ 2 := by rw [pow_succ 2 d, pow_mul]
      _ = t (k / 2 ^ (d + 1)) ^ 2 := by rw [ih, mul_pow, hsign, one_mul, habove]
      _ = (-1) ^ (k / 2 ^ (d + 1)) * t (k / 2 ^ (d + 1) / 2) := ht _ hlt

/-- At the points of a block, the power of its size is the factor of the block above it, up to the
sign of the half. -/
theorem IsTwiddle.pow_block {k : Nat} (ht : IsTwiddle t m) (hc : (c + 1) * 2 ^ depth ≤ m)
    (hk : k < 2 ^ depth) :
    (t (c * 2 ^ depth + k) ^ 2) ^ 2 ^ depth = (-1) ^ c * t (c / 2) := by
  have hposition : c * 2 ^ depth + k < m := by
    rw [Nat.succ_mul] at hc
    omega
  have hblock : (c * 2 ^ depth + k) / 2 ^ depth = c := by
    rw [Nat.mul_comm, Nat.mul_add_div (Nat.two_pow_pos depth), Nat.div_eq_of_lt hk, Nat.add_zero]
  rw [ht.pow_two_pow hposition, hblock]

/-- The value of a polynomial whose upper coefficients were folded onto the lower ones. -/
theorem sum_fold {size : Nat} {y s : κ} (hy : y ^ size = s) (f : Nat → κ) :
    ∑ j ∈ Finset.range size, (f j + s * f (size + j)) * y ^ j =
      ∑ j ∈ Finset.range (size + size), f j * y ^ j := by
  rw [Finset.sum_range_add, ← Finset.sum_add_distrib]
  apply Finset.sum_congr rfl
  intro j _
  rw [pow_add, hy]
  ring

/-- The entries of the two combinations of the halves. -/
theorem getD_zipWith_halves (x : κ) {j : Nat} (hlow : low.length = 2 ^ depth)
    (hhigh : high.length = 2 ^ depth) (hj : j < 2 ^ depth) :
    (List.zipWith (· + ·) low (high.map (x * ·))).getD j 0 =
        (low ++ high).getD j 0 + x * (low ++ high).getD (2 ^ depth + j) 0 ∧
      (List.zipWith (· - ·) low (high.map (x * ·))).getD j 0 =
        (low ++ high).getD j 0 + -x * (low ++ high).getD (2 ^ depth + j) 0 := by
  have hjl : j < low.length := hlow ▸ hj
  have hjh : j < high.length := hhigh ▸ hj
  have hfirst : (low ++ high).getD j 0 = low[j] := by
    rw [List.getD_eq_getElem?_getD, List.getElem?_append_left hjl]
    simp [hjl]
  have hsecond : (low ++ high).getD (2 ^ depth + j) 0 = high[j] := by
    rw [List.getD_eq_getElem?_getD, List.getElem?_append_right (by omega), hlow,
      Nat.add_sub_cancel_left]
    simp [hjh]
  rw [hfirst, hsecond]
  constructor
  · simp [List.getD_eq_getElem?_getD, hjl, hjh]
  · simp [List.getD_eq_getElem?_getD, hjl, hjh, sub_eq_add_neg]

/-- The entry at each position of the result is the value of the block at the square of the factor
of that position. -/
theorem getD_forward (ht : IsTwiddle t m) {a : List κ} (ha : a.length = 2 ^ depth)
    (hc : (c + 1) * 2 ^ depth ≤ m) {k : Nat} (hk : k < 2 ^ depth) :
    (forward t depth c a).getD k 0 =
      ∑ j ∈ Finset.range (2 ^ depth), a.getD j 0 * (t (c * 2 ^ depth + k) ^ 2) ^ j := by
  induction depth generalizing c a k with
  | zero =>
    obtain rfl : k = 0 := by simpa using hk
    simp
  | succ depth ih =>
    rcases exists_halves ha with ⟨low, high, rfl, hlow, hhigh⟩
    rcases halves_le hc with ⟨hfirst, hsecond⟩
    have hdouble : 2 ^ (depth + 1) = 2 ^ depth + 2 ^ depth := by ring
    have hsums : (List.zipWith (· + ·) low (high.map (t c * ·))).length = 2 ^ depth := by
      simp [hlow, hhigh]
    have hdifferences : (List.zipWith (· - ·) low (high.map (t c * ·))).length = 2 ^ depth := by
      simp [hlow, hhigh]
    have hskip := length_forward t (2 * c) hsums
    rw [forward_append t c hlow, hdouble, List.getD_eq_getElem?_getD]
    cases Nat.lt_or_ge k (2 ^ depth) with
    | inl hlower =>
      -- At the points of the first half, the power of its size is the factor of the block.
      have hindex : c * (2 ^ depth + 2 ^ depth) + k = 2 * c * 2 ^ depth + k := by ring
      have hpoint : (t (2 * c * 2 ^ depth + k) ^ 2) ^ 2 ^ depth = t c := by
        rw [ht.pow_block hfirst hlower, pow_mul, neg_one_sq, one_pow, one_mul,
          Nat.mul_div_cancel_left c Nat.two_pos]
      rw [List.getElem?_append_left (by omega), ← List.getD_eq_getElem?_getD,
        ih hsums hfirst hlower, hindex, ← sum_fold hpoint]
      apply Finset.sum_congr rfl
      intro j hj
      rw [(getD_zipWith_halves (t c) hlow hhigh (Finset.mem_range.1 hj)).1]
    | inr hupper =>
      -- At those of the second half it is the negated factor.
      obtain ⟨l, rfl⟩ : ∃ l, k = 2 ^ depth + l := ⟨k - 2 ^ depth, by omega⟩
      have hl : l < 2 ^ depth := by omega
      have hindex : c * (2 ^ depth + 2 ^ depth) + (2 ^ depth + l) =
          (2 * c + 1) * 2 ^ depth + l := by
        ring
      have hhalf : (2 * c + 1) / 2 = c := by omega
      have hpoint : (t ((2 * c + 1) * 2 ^ depth + l) ^ 2) ^ 2 ^ depth = -t c := by
        rw [ht.pow_block hsecond hl, hhalf, pow_succ, pow_mul, neg_one_sq, one_pow]
        ring
      rw [List.getElem?_append_right (by omega), hskip, Nat.add_sub_cancel_left,
        ← List.getD_eq_getElem?_getD, ih hdifferences hsecond hl, hindex, ← sum_fold hpoint]
      apply Finset.sum_congr rfl
      intro j hj
      rw [(getD_zipWith_halves (t c) hlow hhigh (Finset.mem_range.1 hj)).2]

end TorusFHE.Butterfly
