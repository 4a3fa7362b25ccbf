import Mathlib.RingTheory.AdjoinRoot
import TorusFHE.Proofs.Fault
import TorusFHE.Proofs.Torus.Ring
import TorusFHE.Torus.Vector

/-!
# Negacyclic products

In `R[X] / (X ^ n + 1)` a power beyond the last one comes back at the front with a sign.
`negacyclicCoeff` are the coefficients of the product of two polynomials by the schoolbook rule.

* `sum_negacyclicCoeff_mul_pow`: at every point with `x ^ n = -1`, in any ring, the value of the
  product is the product of the values;
* `negacyclicSum_set_add_constant`: a constant that is added to one factor in a sum of products;
* `abs_negacyclicSum_le`: how large the coefficients of such a sum are over the integers;
* `negacyclicClass_negacyclicCoeff` and `negacyclicClass_negacyclicSum`: the same at the class of
  `X`, so that the rule is the product of the quotient ring.
-/

namespace TorusFHE

open scoped Polynomial

variable {R : Type} [CommRing R]

/-- Coefficient `k` of the product of two polynomials of `n` coefficients modulo `X ^ n + 1`: the
terms of degree `k`, less those of degree `n + k`. -/
def negacyclicCoeff (n : Nat) (a b : Nat → R) (k : Nat) : R :=
  ∑ i ∈ Finset.range n, if i ≤ k then a i * b (k - i) else -(a i * b (n + k - i))

/-- Ring homomorphisms map the products of polynomials. -/
theorem map_negacyclicCoeff {S : Type} [CommRing S] (f : R →+* S) (n : Nat) (a b : Nat → R)
    (k : Nat) :
    f (negacyclicCoeff n a b k) = negacyclicCoeff n (fun i => f (a i)) (fun i => f (b i)) k := by
  rw [negacyclicCoeff, negacyclicCoeff, map_sum]
  apply Finset.sum_congr rfl
  intro i _
  split
  · rw [map_mul]
  · rw [map_neg, map_mul]

/-- The product with `X ^ i` turns the coefficients around, and those that come back at the front
change their sign. -/
theorem sum_rotate_mul_pow {n i : Nat} (hi : i ≤ n) {x : R} (hx : x ^ n = -1) (b : Nat → R) :
    ∑ k ∈ Finset.range n, (if i ≤ k then b (k - i) else -b (n + k - i)) * x ^ k =
      x ^ i * ∑ j ∈ Finset.range n, b j * x ^ j := by
  obtain ⟨r, rfl⟩ : ∃ r, n = i + r := ⟨n - i, by omega⟩
  -- On the left the first `i` coefficients came back; on the right they are the last ones.
  have hback : ∑ k ∈ Finset.range i,
      (if i ≤ k then b (k - i) else -b (i + r + k - i)) * x ^ k =
        x ^ i * ∑ k ∈ Finset.range i, b (r + k) * x ^ (r + k) := by
    rw [Finset.mul_sum]
    apply Finset.sum_congr rfl
    intro k hk
    have hlt : ¬i ≤ k := Nat.not_le.2 (Finset.mem_range.1 hk)
    have hindex : i + r + k - i = r + k := by omega
    have hpow : x ^ i * x ^ (r + k) = -x ^ k := by
      rw [← pow_add, ← Nat.add_assoc, pow_add, hx, neg_one_mul]
    rw [if_neg hlt, hindex]
    linear_combination -b (r + k) * hpow
  have hfront : ∑ k ∈ Finset.range r,
      (if i ≤ i + k then b (i + k - i) else -b (i + r + (i + k) - i)) * x ^ (i + k) =
        x ^ i * ∑ k ∈ Finset.range r, b k * x ^ k := by
    rw [Finset.mul_sum]
    apply Finset.sum_congr rfl
    intro k _
    rw [if_pos (Nat.le_add_right i k), Nat.add_sub_cancel_left, pow_add]
    ring
  calc
    _ = x ^ i * ∑ k ∈ Finset.range i, b (r + k) * x ^ (r + k)
          + x ^ i * ∑ k ∈ Finset.range r, b k * x ^ k := by
      rw [Finset.sum_range_add, hback, hfront]
    _ = x ^ i * ∑ j ∈ Finset.range (i + r), b j * x ^ j := by
      rw [Nat.add_comm i r, Finset.sum_range_add]
      ring

/-- At a point with `x ^ n = -1` the value of the product is the product of the values. -/
theorem sum_negacyclicCoeff_mul_pow {n : Nat} {x : R} (hx : x ^ n = -1) (a b : Nat → R) :
    ∑ k ∈ Finset.range n, negacyclicCoeff n a b k * x ^ k =
      (∑ i ∈ Finset.range n, a i * x ^ i) * ∑ j ∈ Finset.range n, b j * x ^ j := by
  calc
    ∑ k ∈ Finset.range n, negacyclicCoeff n a b k * x ^ k
        = ∑ k ∈ Finset.range n, ∑ i ∈ Finset.range n,
            a i * ((if i ≤ k then b (k - i) else -b (n + k - i)) * x ^ k) := by
      apply Finset.sum_congr rfl
      intro k _
      rw [negacyclicCoeff, Finset.sum_mul]
      apply Finset.sum_congr rfl
      intro i _
      split <;> ring
    _ = ∑ i ∈ Finset.range n, a i * (x ^ i * ∑ j ∈ Finset.range n, b j * x ^ j) := by
      rw [Finset.sum_comm]
      apply Finset.sum_congr rfl
      intro i hi
      rw [← Finset.mul_sum, sum_rotate_mul_pow (Finset.mem_range.1 hi).le hx]
    _ = (∑ i ∈ Finset.range n, a i * x ^ i) * ∑ j ∈ Finset.range n, b j * x ^ j := by
      rw [Finset.sum_mul]
      apply Finset.sum_congr rfl
      intro i _
      ring

/-- Coefficient `k` of the sum of the products of pairs of polynomials. -/
def negacyclicSum (n : Nat) (fs gs : List (Nat → R)) (k : Nat) : R :=
  (List.zipWith (fun f g => negacyclicCoeff n f g k) fs gs).sum

@[simp] theorem negacyclicSum_nil (n : Nat) (gs : List (Nat → R)) (k : Nat) :
    negacyclicSum n [] gs k = 0 := by
  simp [negacyclicSum]

@[simp] theorem negacyclicSum_cons_cons (n : Nat) (f g : Nat → R) (fs gs : List (Nat → R))
    (k : Nat) :
    negacyclicSum n (f :: fs) (g :: gs) k = negacyclicCoeff n f g k + negacyclicSum n fs gs k := by
  simp [negacyclicSum]

theorem negacyclicSum_nil_right (n : Nat) (fs : List (Nat → R)) (k : Nat) :
    negacyclicSum n fs [] k = 0 := by
  simp [negacyclicSum]

/-- To the last coefficient of a product no term comes back. -/
theorem negacyclicCoeff_last (n : Nat) (a b : Nat → R) :
    negacyclicCoeff (n + 1) a b n = ∑ i ∈ Finset.range (n + 1), a i * b (n - i) := by
  refine Finset.sum_congr rfl fun i hi => ?_
  rw [if_pos (Nat.le_of_lt_succ (Finset.mem_range.1 hi))]

/-! ## Constants -/

/-- A constant added to one factor adds that multiple of the other. -/
theorem negacyclicCoeff_add_constant {n : Nat} (hn : 0 < n) (a b : Nat → R) (c : R) (k : Nat) :
    negacyclicCoeff n (fun i => (if i = 0 then c else 0) + a i) b k =
      c * b k + negacyclicCoeff n a b k := by
  have hconstant : ∑ i ∈ Finset.range n,
      (if i ≤ k then (if i = 0 then c else 0) * b (k - i)
        else -((if i = 0 then c else 0) * b (n + k - i))) = c * b k := by
    rw [Finset.sum_eq_single_of_mem 0 (Finset.mem_range.2 hn)]
    · simp
    · intro i _ hi
      simp [hi]
  rw [negacyclicCoeff, negacyclicCoeff, ← hconstant, ← Finset.sum_add_distrib]
  refine Finset.sum_congr rfl fun i _ => ?_
  split <;> ring

/-- In a sum of products, a constant added to one left factor adds that multiple of its partner. -/
theorem negacyclicSum_set_add_constant {n r : Nat} (hn : 0 < n) {fs gs : List (Nat → R)}
    {f g : Nat → R} (hf : fs[r]? = some f) (hg : gs[r]? = some g) (c : R) (k : Nat) :
    negacyclicSum n (fs.set r fun i => (if i = 0 then c else 0) + f i) gs k =
      c * g k + negacyclicSum n fs gs k := by
  induction fs generalizing gs r with
  | nil => simp at hf
  | cons f₁ fs ih =>
    cases gs with
    | nil => simp at hg
    | cons g₁ gs =>
      cases r with
      | zero =>
        cases hf
        cases hg
        rw [List.set_cons_zero, negacyclicSum_cons_cons, negacyclicSum_cons_cons,
          negacyclicCoeff_add_constant hn, add_assoc]
      | succ r =>
        rw [List.set_cons_succ, negacyclicSum_cons_cons, negacyclicSum_cons_cons, ih hf hg,
          add_left_comm]

/-! ## Bounds over the integers -/

/-- A coefficient of a product is at most as many times the largest product of coefficients as there
are coefficients. -/
theorem abs_negacyclicCoeff_le {n : Nat} {a b : Nat → Int} {A B : Int} (ha : ∀ i, |a i| ≤ A)
    (hb : ∀ i, |b i| ≤ B) (k : Nat) : |negacyclicCoeff n a b k| ≤ n * (A * B) := by
  have hA : 0 ≤ A := (abs_nonneg _).trans (ha 0)
  have hterm : ∀ i j, |a i * b j| ≤ A * B := by
    intro i j
    rw [abs_mul]
    exact mul_le_mul (ha i) (hb j) (abs_nonneg _) hA
  calc
    |negacyclicCoeff n a b k|
        ≤ ∑ i ∈ Finset.range n, |if i ≤ k then a i * b (k - i) else -(a i * b (n + k - i))| :=
      Finset.abs_sum_le_sum_abs _ _
    _ ≤ ∑ _i ∈ Finset.range n, A * B := by
      refine Finset.sum_le_sum fun i _ => ?_
      split
      · exact hterm _ _
      · rw [abs_neg]
        exact hterm _ _
    _ = n * (A * B) := by simp

/-- A coefficient of a sum of products is at most as many times that as there are products. -/
theorem abs_negacyclicSum_le {n : Nat} {fs gs : List (Nat → Int)} {A B : Int}
    (hfs : ∀ f ∈ fs, ∀ i, |f i| ≤ A) (hgs : ∀ g ∈ gs, ∀ i, |g i| ≤ B)
    (hlen : fs.length = gs.length) (k : Nat) :
    |negacyclicSum n fs gs k| ≤ fs.length * (n * (A * B)) := by
  induction fs generalizing gs with
  | nil => simp
  | cons f fs ih =>
    cases gs with
    | nil => simp at hlen
    | cons g gs =>
      rcases List.forall_mem_cons.1 hfs with ⟨hf, hfs⟩
      rcases List.forall_mem_cons.1 hgs with ⟨hg, hgs⟩
      have hhead : |negacyclicCoeff n f g k| ≤ n * (A * B) := abs_negacyclicCoeff_le hf hg k
      have htail := ih hfs hgs (by simpa using hlen)
      calc
        |negacyclicSum n (f :: fs) (g :: gs) k|
            ≤ |negacyclicCoeff n f g k| + |negacyclicSum n fs gs k| := by
          rw [negacyclicSum_cons_cons]
          exact abs_add_le _ _
        _ ≤ n * (A * B) + fs.length * (n * (A * B)) := add_le_add hhead htail
        _ = (f :: fs).length * (n * (A * B)) := by
          rw [List.length_cons]
          push_cast
          ring

/-! ## Torus polynomials -/

/-- The coefficients of a polynomial. -/
def TorusVec.entry (a : TorusVec) (i : Nat) : Torus :=
  a.getD i 0

/-- The coefficients of a polynomial, read as centred numbers of units. -/
def TorusVec.units (a : TorusVec) (i : Nat) : Int :=
  (a.entry i).centered

theorem TorusVec.abs_units_le (a : TorusVec) (i : Nat) : |a.units i| ≤ 2 ^ 31 :=
  abs_le.2 ⟨Torus.neg_le_centered _, (Torus.centered_lt _).le⟩

/-- The numbers of units of a binary vector are zero or one. -/
theorem TorusVec.abs_units_le_one {a : TorusVec} (ha : ∀ x ∈ a, x = 0 ∨ x = 1) (i : Nat) :
    |a.units i| ≤ 1 := by
  have hentry : a.entry i = 0 ∨ a.entry i = 1 := by
    by_cases hi : i < a.length
    · exact ha _ (List.mem_of_getElem? (getElem?_eq_some_getD hi 0))
    · exact .inl (by simp [entry, List.getD_eq_getElem?_getD, Nat.le_of_not_lt hi])
  rcases hentry with h | h <;> rw [units, h] <;> decide

/-- The product of the centred numbers of units is one of the numbers of units of the product. -/
theorem intCast_negacyclicCoeff_units (n : Nat) (a b : TorusVec) (k : Nat) :
    ((negacyclicCoeff n a.units b.units k : Int) : Torus) =
      negacyclicCoeff n a.entry b.entry k := by
  have hcast := map_negacyclicCoeff (Int.castRingHom Torus) n a.units b.units k
  simpa [TorusVec.units] using hcast

theorem intCast_negacyclicSum_units (n : Nat) (as bs : List TorusVec) (k : Nat) :
    ((negacyclicSum n (as.map TorusVec.units) (bs.map TorusVec.units) k : Int) : Torus) =
      negacyclicSum n (as.map TorusVec.entry) (bs.map TorusVec.entry) k := by
  induction as generalizing bs with
  | nil => simp
  | cons a as ih =>
    cases bs with
    | nil => simp [negacyclicSum_nil_right]
    | cons b bs => simp [intCast_negacyclicCoeff_units, ih]

/-! ## The quotient ring -/

/-- The polynomial `X ^ n + 1`. -/
noncomputable def negacyclicModulus (R : Type) [CommRing R] (n : Nat) : R[X] :=
  Polynomial.X ^ n + 1

/-- The class of the polynomial with these `n` coefficients modulo `X ^ n + 1`. -/
noncomputable def negacyclicClass (n : Nat) (a : Nat → R) : AdjoinRoot (negacyclicModulus R n) :=
  ∑ i ∈ Finset.range n,
    AdjoinRoot.of (negacyclicModulus R n) (a i) * AdjoinRoot.root (negacyclicModulus R n) ^ i

/-- The schoolbook rule is the product of the quotient ring. -/
theorem negacyclicClass_negacyclicCoeff (n : Nat) (a b : Nat → R) :
    negacyclicClass n (negacyclicCoeff n a b) = negacyclicClass n a * negacyclicClass n b := by
  have hroot : AdjoinRoot.root (negacyclicModulus R n) ^ n = -1 := by
    have hzero := AdjoinRoot.eval₂_root (negacyclicModulus R n)
    rw [negacyclicModulus, Polynomial.eval₂_add, Polynomial.eval₂_X_pow, Polynomial.eval₂_one]
      at hzero
    exact eq_neg_of_add_eq_zero_left hzero
  simp only [negacyclicClass, map_negacyclicCoeff]
  exact sum_negacyclicCoeff_mul_pow hroot _ _

/-- So is the sum of such products. -/
theorem negacyclicClass_negacyclicSum (n : Nat) (fs gs : List (Nat → R)) :
    negacyclicClass n (negacyclicSum n fs gs) =
      (List.zipWith (fun f g => negacyclicClass n f * negacyclicClass n g) fs gs).sum := by
  induction fs generalizing gs with
  | nil => simp [negacyclicClass]
  | cons f fs ih =>
    cases gs with
    | nil => simp [negacyclicClass, negacyclicSum_nil_right]
    | cons g gs =>
      rw [List.zipWith_cons_cons, List.sum_cons, ← ih, ← negacyclicClass_negacyclicCoeff]
      simp [negacyclicClass, add_mul, Finset.sum_add_distrib]

end TorusFHE
