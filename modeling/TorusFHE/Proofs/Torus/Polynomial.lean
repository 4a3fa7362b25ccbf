import TorusFHE.Proofs.Torus.Vector
import TorusFHE.Torus.Polynomial

/-!
# Polynomials of one size

The operations on polynomials whose size is one power of two never fault, and their coefficients are
those of the operation on vectors.

* `Polynomial.size_zipWith`: combined coefficient by coefficient, polynomials keep their size;
* `Polynomial.add_eq_ok` and the like: what the operations return;
* `TorusVec.getD_modify_zero_add`: the coefficients once a constant is added.
-/

namespace TorusFHE

variable {n : Nat}

namespace Polynomial

theorem ofVec_eq_ok {v : TorusVec} (hn : n.isPowerOfTwo) (hv : v.length = n) :
    ofVec v = .ok ⟨v⟩ :=
  if_pos (hv ▸ hn)

theorem zero_eq_ok (hn : n.isPowerOfTwo) : zero n = .ok ⟨TorusVec.zeros n⟩ :=
  ofVec_eq_ok hn List.length_replicate

section Pairs

variable {p q : Polynomial} (hp : p.size = n) (hq : q.size = n)
include hp hq

theorem size_zipWith (f : Torus → Torus → Torus) :
    size ⟨List.zipWith f p.coeffs q.coeffs⟩ = n := by
  rw [size] at hp hq
  simp [size, hp, hq]

/-- Coefficients of one number are combined one by one. -/
theorem zipExact_ofVec_eq_ok (hn : n.isPowerOfTwo) (f : Torus → Torus → Torus) :
    (zipExact f p.coeffs q.coeffs >>= ofVec) = .ok ⟨List.zipWith f p.coeffs q.coeffs⟩ := by
  rw [zipExact_of_length (hp.trans hq.symm), ok_bind]
  exact ofVec_eq_ok hn (size_zipWith hp hq f)

theorem add_eq_ok (hn : n.isPowerOfTwo) :
    p.add q = .ok ⟨List.zipWith (· + ·) p.coeffs q.coeffs⟩ :=
  zipExact_ofVec_eq_ok hp hq hn (· + ·)

theorem sub_eq_ok (hn : n.isPowerOfTwo) :
    p.sub q = .ok ⟨List.zipWith (· - ·) p.coeffs q.coeffs⟩ :=
  zipExact_ofVec_eq_ok hp hq hn (· - ·)

end Pairs

/-! ## Constant coefficients -/

theorem addAt_zero_eq_ok {p : Polynomial} (hp : 0 < p.size) (c : Torus) :
    p.addAt 0 c = .ok ⟨p.coeffs.modify 0 (· + c)⟩ :=
  if_pos hp

end Polynomial

namespace TorusVec

/-- Entrywise differences from a vector move with its first entry. -/
theorem zipWith_sub_modify_zero (v w : TorusVec) (m : Torus) :
    List.zipWith (· - ·) (v.modify 0 (· + m)) w =
      (List.zipWith (· - ·) v w).modify 0 (· + m) := by
  cases v with
  | nil => rfl
  | cons x v =>
    cases w with
    | nil => rfl
    | cons y w =>
      simp only [List.modify_zero_cons, List.zipWith_cons_cons]
      rw [sub_add_eq_add_sub]

theorem getD_modify_zero_add {v : TorusVec} {t : Nat} (ht : t < v.length) (m : Torus) :
    (v.modify 0 (· + m)).getD t 0 = (if t = 0 then m else 0) + v.getD t 0 := by
  cases v with
  | nil => simp at ht
  | cons x v =>
    cases t with
    | zero => simp [add_comm]
    | succ t => simp

end TorusVec

end TorusFHE
