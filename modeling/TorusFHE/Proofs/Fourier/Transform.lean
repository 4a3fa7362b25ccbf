import TorusFHE.Fourier.Transform
import TorusFHE.Proofs.Fault
import TorusFHE.Proofs.Fourier.BitReversal
import TorusFHE.Proofs.Fourier.Butterfly

/-!
# Sizes of transforms

There is a transform for every power of two from two on, and none of its operations faults on
polynomials of its size, whatever the numbers that it computes with.

* `Transform.ofDepth`: the transform on polynomials of `2 ^ (depth + 1)` coefficients;
* `Transform.exists_ofSize`: every admitted size has one;
* `Transform.forward_eq_ok`, `Transform.backward_eq_ok`, `Transform.exists_innerProduct`: the
  operations on operands of the right size.
-/

namespace TorusFHE

namespace Transform

variable {κ : Type} [FourierScalar κ]

/-- The transform on polynomials of `2 ^ (depth + 1)` coefficients. -/
def ofDepth (κ : Type) [FourierScalar κ] (depth : Nat) : Transform κ where
  size := 2 ^ (depth + 1)
  twist := (List.range (2 ^ depth)).map fun j => FourierScalar.root j (2 ^ (depth + 1))
  untwist := ((List.range (2 ^ depth)).map fun j =>
    FourierScalar.root j (2 ^ (depth + 1))).map FourierScalar.conj
  twiddle := (reverseBits depth ((List.range (2 ^ depth)).map fun j =>
    FourierScalar.root j (2 ^ depth))).toArray
  untwiddle := (reverseBits depth (((List.range (2 ^ depth)).map fun j =>
    FourierScalar.root j (2 ^ depth)).map FourierScalar.conj)).toArray

theorem two_pow_succ_div_two (depth : Nat) : 2 ^ (depth + 1) / 2 = 2 ^ depth := by
  rw [pow_succ, Nat.mul_div_cancel _ Nat.two_pos]

theorem ofSize_two_pow (depth : Nat) :
    (ofSize (2 ^ (depth + 1)) : Except Fault (Transform κ)) = .ok (ofDepth κ depth) := by
  have hpos : 0 < 2 ^ depth := Nat.two_pow_pos depth
  have hdouble : 2 ^ (depth + 1) = 2 ^ depth * 2 := pow_succ 2 depth
  have hlarge : ¬2 ^ (depth + 1) < 2 := by omega
  have hpower : (2 ^ (depth + 1)).isPowerOfTwo := ⟨depth + 1, rfl⟩
  rw [ofSize, if_neg hlarge, if_pos hpower]
  simp only [two_pow_succ_div_two, Nat.log2_two_pow]
  rfl

/-- Every admitted size is that of a transform. -/
theorem exists_ofSize {n : Nat} (hn : 2 ≤ n) (hpower : n.isPowerOfTwo) :
    ∃ depth, n = 2 ^ (depth + 1) ∧
      (ofSize n : Except Fault (Transform κ)) = .ok (ofDepth κ depth) := by
  rcases hpower with ⟨exponent, rfl⟩
  cases exponent with
  | zero => simp at hn
  | succ depth => exact ⟨depth, rfl, ofSize_two_pow depth⟩

variable (depth : Nat)

@[simp] theorem size_ofDepth : (ofDepth κ depth).size = 2 ^ (depth + 1) :=
  rfl

@[simp] theorem points_ofDepth : (ofDepth κ depth).points = 2 ^ depth := by
  rw [points, size_ofDepth, two_pow_succ_div_two]

@[simp] theorem length_twist_ofDepth : (ofDepth κ depth).twist.length = 2 ^ depth := by
  simp [ofDepth]

@[simp] theorem length_untwist_ofDepth : (ofDepth κ depth).untwist.length = 2 ^ depth := by
  simp [ofDepth]

variable {depth}

/-- The twiddle factor of the block numbered `c` in the forward pass. -/
def twiddleAt (κ : Type) [FourierScalar κ] (depth c : Nat) : κ :=
  (ofDepth κ depth).twiddle.getD c 0

/-- The twiddle factor of the block numbered `c` in the backward pass. -/
def untwiddleAt (κ : Type) [FourierScalar κ] (depth c : Nat) : κ :=
  (ofDepth κ depth).untwiddle.getD c 0

/-- The points of a polynomial before they are transformed: folded and twisted. -/
def twisted (depth : Nat) (a : TorusVec) : List κ :=
  List.zipWith (· * ·)
    (List.zipWith (fun x y => FourierScalar.ofParts x.centered y.centered)
      (a.take (2 ^ depth)) (a.drop (2 ^ depth)))
    (ofDepth κ depth).twist

theorem length_twisted {a : TorusVec} (ha : a.length = 2 ^ (depth + 1)) :
    (twisted depth a : List κ).length = 2 ^ depth := by
  have hdouble : 2 ^ (depth + 1) = 2 ^ depth * 2 := pow_succ 2 depth
  simp [twisted, ha]
  omega

/-- Every polynomial of the right size is transformed. -/
theorem forward_eq_ok {a : TorusVec} (ha : a.length = 2 ^ (depth + 1)) :
    (ofDepth κ depth).forward a =
      .ok (Butterfly.forward (twiddleAt κ depth) depth 0 (twisted depth a)) := by
  have hsize : a.length = (ofDepth κ depth).size := ha
  rw [forward, if_pos hsize]
  simp only [points_ofDepth, Nat.log2_two_pow]
  rfl

theorem exists_forward {a : TorusVec} (ha : a.length = 2 ^ (depth + 1)) :
    ∃ ps, (ofDepth κ depth).forward a = .ok ps ∧ ps.length = 2 ^ depth :=
  ⟨_, forward_eq_ok ha, Butterfly.length_forward _ _ (length_twisted ha)⟩

/-- The folded coefficients behind a list of points. -/
def untwisted (depth : Nat) (ps : List κ) : List κ :=
  List.zipWith (fun x r => FourierScalar.divNat (x * r) (2 ^ depth))
    (Butterfly.backward (untwiddleAt κ depth) depth 0 ps) (ofDepth κ depth).untwist

theorem length_untwisted {ps : List κ} (hps : ps.length = 2 ^ depth) :
    (untwisted depth ps).length = 2 ^ depth := by
  simp [untwisted, Butterfly.length_backward _ _ hps]

/-- The polynomial whose lower and upper coefficients are these, in pairs. -/
def ofPairs (parts : List (Int × Int)) : Polynomial :=
  ⟨parts.map (fun p => Torus.ofInt p.1) ++ parts.map fun p => Torus.ofInt p.2⟩

/-- Every list of as many points as the transform has is transformed back. -/
theorem backward_eq_ok {ps : List κ} (hps : ps.length = 2 ^ depth) :
    (ofDepth κ depth).backward ps =
      .ok (ofPairs ((untwisted depth ps).map FourierScalar.toParts)) := by
  have hpoints : ps.length = (ofDepth κ depth).points := by rw [hps, points_ofDepth]
  rw [backward, if_pos hpoints]
  simp only [points_ofDepth, Nat.log2_two_pow]
  rfl

theorem exists_backward {ps : List κ} (hps : ps.length = 2 ^ depth) :
    ∃ p, (ofDepth κ depth).backward ps = .ok p ∧ p.size = 2 ^ (depth + 1) := by
  refine ⟨_, backward_eq_ok hps, ?_⟩
  have hlen := length_untwisted hps
  simp [ofPairs, Polynomial.size, hlen, pow_succ, mul_two]

/-! ## Inner products -/

theorem accumulate_eq_ok {acc a b : List κ} (hab : a.length = b.length)
    (hacc : acc.length = a.length) :
    accumulate acc a b = .ok (List.zipWith (· + ·) acc (List.zipWith (· * ·) a b)) := by
  have hproduct : acc.length = (List.zipWith (· * ·) a b).length := by simp [hacc, hab]
  rw [accumulate, zipExact_of_length hab, ok_bind, zipExact_of_length hproduct]

/-- Products of lists of one length can be added up, and the sum has that length. -/
theorem exists_foldlM_accumulate {m : Nat} {pairs : List (List κ × List κ)}
    (hpairs : ∀ p ∈ pairs, p.1.length = m ∧ p.2.length = m) {acc : List κ} (hacc : acc.length = m) :
    ∃ sum, pairs.foldlM (fun acc p => accumulate acc p.1 p.2) acc = .ok sum ∧ sum.length = m := by
  induction pairs generalizing acc with
  | nil => exact ⟨acc, rfl, hacc⟩
  | cons p pairs ih =>
    rcases hpairs p (by simp) with ⟨hleft, hright⟩
    have hstep := accumulate_eq_ok (hleft.trans hright.symm) (hacc.trans hleft.symm)
    have hlen : (List.zipWith (· + ·) acc (List.zipWith (· * ·) p.1 p.2)).length = m := by
      simp [hacc, hleft, hright]
    rcases ih (fun q hq => hpairs q (by simp [hq])) hlen with ⟨sum, hsum, hsumLength⟩
    exact ⟨sum, by rw [List.foldlM_cons, hstep, ok_bind, hsum], hsumLength⟩

/-- Inner products of equally long lists of points exist and are polynomials of the right size. -/
theorem exists_innerProduct {as bs : List (List κ)} (hlen : as.length = bs.length)
    (has : ∀ a ∈ as, a.length = 2 ^ depth) (hbs : ∀ b ∈ bs, b.length = 2 ^ depth) :
    ∃ p, (ofDepth κ depth).innerProduct as bs = .ok p ∧ p.size = 2 ^ (depth + 1) := by
  have hpairs : ∀ p ∈ List.zipWith Prod.mk as bs,
      p.1.length = 2 ^ depth ∧ p.2.length = 2 ^ depth := by
    intro p hp
    have hmem : p.1 ∈ as ∧ p.2 ∈ bs := List.of_mem_zip hp
    exact ⟨has _ hmem.1, hbs _ hmem.2⟩
  have hzeros : (List.replicate (ofDepth κ depth).points (0 : κ)).length = 2 ^ depth := by simp
  rcases exists_foldlM_accumulate hpairs hzeros with ⟨sum, hsum, hsumLength⟩
  rcases exists_backward hsumLength with ⟨p, hp, hsize⟩
  refine ⟨p, ?_, hsize⟩
  rw [innerProduct, zipExact_of_length hlen, ok_bind, hsum, ok_bind, hp]

end Transform

end TorusFHE
