import Mathlib.Tactic.Ring
import TorusFHE.Fourier.BitReversal

/-!
# Positions under bit reversal

`reverseIndex depth i` has the `depth` low bits of `i` in reverse.  The permutation by halves moves
the entries accordingly.

* `testBit_reverseIndex`: each bit of a reversed position;
* `reverseIndex_reverseIndex`: reversing the bits twice changes nothing;
* `reverseIndex_add_mul_two_pow`: what the top bit of a position does to its reversal;
* `two_mul_reverseIndex`: the reversal of the upper bits;
* `getElem?_reverseBits`: where each entry of a permuted list comes from;
* `reverseBits_reverseBits` and `reverseBits_perm`: the permutation undoes itself and keeps entries.
-/

namespace TorusFHE

/-! ## Reversed positions -/

/-- The `depth` low bits of `i` in reverse: the lowest bit becomes the highest one. -/
def reverseIndex : Nat → Nat → Nat
  | 0, _ => 0
  | depth + 1, i => i % 2 * 2 ^ depth + reverseIndex depth (i / 2)

theorem reverseIndex_lt (depth i : Nat) : reverseIndex depth i < 2 ^ depth := by
  induction depth generalizing i with
  | zero => simp [reverseIndex]
  | succ depth ih =>
    have hrest : reverseIndex depth (i / 2) < 2 ^ depth := ih (i / 2)
    have hbit : i % 2 * 2 ^ depth ≤ 1 * 2 ^ depth :=
      Nat.mul_le_mul_right _ (Nat.le_of_lt_succ (Nat.mod_lt i Nat.two_pos))
    rw [reverseIndex, pow_succ]
    omega

/-- Bit `i` of the reversal is the bit as far from the other end. -/
theorem testBit_reverseIndex {depth i : Nat} (hi : i < depth) (k : Nat) :
    (reverseIndex depth k).testBit i = k.testBit (depth - 1 - i) := by
  induction depth generalizing k with
  | zero => omega
  | succ depth ih =>
    rw [reverseIndex, Nat.mul_comm, Nat.testBit_two_pow_mul_add _ (reverseIndex_lt depth (k / 2))]
    cases Nat.lt_or_eq_of_le (Nat.le_of_lt_succ hi) with
    | inl hlower =>
      -- The lower bits reverse those above the lowest one of `k`.
      have hposition : depth + 1 - 1 - i = depth - 1 - i + 1 := by omega
      rw [if_pos hlower, ih hlower, hposition, Nat.testBit_succ]
    | inr htop =>
      subst htop
      simp [Nat.testBit_zero]

/-- Reversing the bits once more puts them back. -/
theorem reverseIndex_reverseIndex {depth i : Nat} (hi : i < 2 ^ depth) :
    reverseIndex depth (reverseIndex depth i) = i := by
  apply Nat.eq_of_testBit_eq
  intro b
  cases Nat.lt_or_ge b depth with
  | inl hb =>
    have hmirror : depth - 1 - b < depth := by omega
    have hback : depth - 1 - (depth - 1 - b) = b := by omega
    rw [testBit_reverseIndex hb, testBit_reverseIndex hmirror, hback]
  | inr hb =>
    -- Neither side has a bit beyond the depth.
    have hpow : 2 ^ depth ≤ 2 ^ b := Nat.pow_le_pow_right Nat.two_pos hb
    rw [Nat.testBit_lt_two_pow ((reverseIndex_lt _ _).trans_le hpow),
      Nat.testBit_lt_two_pow (hi.trans_le hpow)]

/-- The highest bit becomes the lowest one. -/
theorem reverseIndex_add_mul_two_pow {depth i b : Nat} (hi : i < 2 ^ depth) (hb : b < 2) :
    reverseIndex (depth + 1) (i + b * 2 ^ depth) = 2 * reverseIndex depth i + b := by
  induction depth generalizing i with
  | zero =>
    obtain rfl : i = 0 := by simpa using hi
    simp [reverseIndex, Nat.mod_eq_of_lt hb]
  | succ depth ih =>
    -- The lowest bit is that of `i`; behind it the highest bit is at its place once more.
    have hhalf : i / 2 < 2 ^ depth := by
      rw [pow_succ] at hi
      omega
    have hshift : b * 2 ^ (depth + 1) = 2 * (b * 2 ^ depth) := by ring
    have hmod : (i + b * 2 ^ (depth + 1)) % 2 = i % 2 := by omega
    have hdiv : (i + b * 2 ^ (depth + 1)) / 2 = i / 2 + b * 2 ^ depth := by omega
    rw [reverseIndex, hmod, hdiv, ih hhalf, reverseIndex]
    ring

/-- A position below half the range starts with a zero bit, its reversal ends with one. -/
theorem reverseIndex_succ_of_lt {depth i : Nat} (hi : i < 2 ^ depth) :
    reverseIndex (depth + 1) i = 2 * reverseIndex depth i := by
  have h := reverseIndex_add_mul_two_pow hi Nat.two_pos
  simpa using h

/-- The reversal of the upper bits is twice that of all bits, without the lowest bit. -/
theorem two_mul_reverseIndex {depth i : Nat} (hi : i < 2 ^ depth) :
    2 * reverseIndex depth i = i % 2 * 2 ^ depth + reverseIndex depth (i / 2) := by
  cases depth with
  | zero =>
    obtain rfl : i = 0 := by simpa using hi
    rfl
  | succ depth =>
    have hhalf : i / 2 < 2 ^ depth := by
      rw [pow_succ] at hi
      omega
    rw [reverseIndex_succ_of_lt hhalf, reverseIndex, pow_succ]
    ring

/-! ## Permuted lists -/

variable {α : Type}

theorem getElem?_splitParity (l : List α) (j : Nat) :
    (splitParity l).1[j]? = l[2 * j]? ∧ (splitParity l).2[j]? = l[2 * j + 1]? := by
  induction l generalizing j with
  | nil => simp [splitParity]
  | cons a l ih =>
    constructor
    · cases j with
      | zero => simp [splitParity]
      | succ j =>
        -- The next entry at an even position is one at an odd position of the tail.
        have hodd : (splitParity l).2[j]? = l[2 * j + 1]? := (ih j).2
        simpa [splitParity, Nat.mul_succ] using hodd
    · have heven : (splitParity l).1[j]? = l[2 * j]? := (ih j).1
      simpa [splitParity] using heven

theorem length_splitParity (l : List α) :
    (splitParity l).1.length = (l.length + 1) / 2 ∧ (splitParity l).2.length = l.length / 2 := by
  induction l with
  | nil => simp [splitParity]
  | cons a l ih =>
    rcases ih with ⟨heven, hodd⟩
    constructor
    · simp only [splitParity, List.length_cons, hodd]
      omega
    · simp only [splitParity, List.length_cons, heven]

@[simp] theorem length_reverseBits (depth : Nat) (l : List α) :
    (reverseBits depth l).length = l.length := by
  induction depth generalizing l with
  | zero => rfl
  | succ depth ih =>
    rcases length_splitParity l with ⟨heven, hodd⟩
    rw [reverseBits, List.length_append, ih, ih, heven, hodd]
    omega

theorem splitParity_perm (l : List α) : ((splitParity l).1 ++ (splitParity l).2).Perm l := by
  induction l with
  | nil => exact .nil
  | cons a l ih =>
    -- The two parts of the tail change places.
    have htail : ((splitParity l).2 ++ (splitParity l).1).Perm l := List.perm_append_comm.trans ih
    exact htail.cons a

/-- No entry is lost, and none is there twice. -/
theorem reverseBits_perm (depth : Nat) (l : List α) : (reverseBits depth l).Perm l := by
  induction depth generalizing l with
  | zero => exact .refl l
  | succ depth ih => exact ((ih _).append (ih _)).trans (splitParity_perm l)

/-- Entry `i` of a permuted list is the one whose position has the bits of `i` in reverse. -/
theorem getElem?_reverseBits {depth : Nat} {l : List α} (hl : l.length = 2 ^ depth) {i : Nat}
    (hi : i < 2 ^ depth) : (reverseBits depth l)[i]? = l[reverseIndex depth i]? := by
  induction depth generalizing l i with
  | zero =>
    obtain rfl : i = 0 := by simpa using hi
    rfl
  | succ depth ih =>
    have hdouble : 2 ^ (depth + 1) = 2 ^ depth + 2 ^ depth := by ring
    rcases length_splitParity l with ⟨heven, hodd⟩
    have hevenLength : (splitParity l).1.length = 2 ^ depth := by omega
    have hoddLength : (splitParity l).2.length = 2 ^ depth := by omega
    rw [reverseBits]
    cases Nat.lt_or_ge i (2 ^ depth) with
    | inl hfirst =>
      rw [List.getElem?_append_left (by simpa [hevenLength] using hfirst), ih hevenLength hfirst,
        (getElem?_splitParity l _).1, reverseIndex_succ_of_lt hfirst]
    | inr hsecond =>
      -- The second half holds the odd positions, and its top bit is the one that makes them odd.
      obtain ⟨j, rfl⟩ : ∃ j, i = j + 2 ^ depth := ⟨i - 2 ^ depth, by omega⟩
      have hj : j < 2 ^ depth := by omega
      have hreverse : reverseIndex (depth + 1) (j + 2 ^ depth) = 2 * reverseIndex depth j + 1 := by
        have h := reverseIndex_add_mul_two_pow hj Nat.one_lt_two
        rwa [Nat.one_mul] at h
      have hskip : (reverseBits depth (splitParity l).1).length = 2 ^ depth := by
        rw [length_reverseBits, hevenLength]
      rw [List.getElem?_append_right (by omega), hskip, Nat.add_sub_cancel, ih hoddLength hj,
        (getElem?_splitParity l _).2, hreverse]

theorem reverseBits_reverseBits {depth : Nat} {l : List α} (hl : l.length = 2 ^ depth) :
    reverseBits depth (reverseBits depth l) = l := by
  have hlen : (reverseBits depth l).length = 2 ^ depth := by rw [length_reverseBits, hl]
  apply List.ext_getElem?
  intro i
  cases Nat.lt_or_ge i (2 ^ depth) with
  | inl hi =>
    rw [getElem?_reverseBits hlen hi, getElem?_reverseBits hl (reverseIndex_lt depth i),
      reverseIndex_reverseIndex hi]
  | inr hi => rw [List.getElem?_eq_none (by simpa [hl] using hi), List.getElem?_eq_none (hl ▸ hi)]

/-! ## The permutation on all lists -/

theorem eq_nil_or_length_eq_two_pow {l : List α}
    (h : l.length ≤ 2 ∨ l.length.isPowerOfTwo) : l = [] ∨ ∃ depth, l.length = 2 ^ depth := by
  rcases h with hshort | hpower
  · match l with
    | [] => exact .inl rfl
    | [_] => exact .inr ⟨0, rfl⟩
    | [_, _] => exact .inr ⟨1, rfl⟩
    | _ :: _ :: _ :: _ => simp at hshort
  · exact .inr hpower

/-- The lists that stay as they are do so by their depth too. -/
theorem bitReversal_eq_ok {depth : Nat} {l : List α} (hl : l.length = 2 ^ depth) :
    bitReversal l = .ok (reverseBits depth l) := by
  by_cases hshort : l.length ≤ 2
  · have hsame : reverseBits depth l = l := by
      match depth with
      | 0 => rfl
      | 1 =>
        match l, hl with
        | [_, _], _ => rfl
      | depth + 2 =>
        have hpos : 0 < 2 ^ depth := Nat.two_pow_pos depth
        rw [pow_add] at hl
        omega
    rw [bitReversal, if_pos hshort, hsame]
  · have hpower : l.length.isPowerOfTwo := ⟨depth, hl⟩
    rw [bitReversal, if_neg hshort, if_pos hpower, hl, Nat.log2_two_pow]

end TorusFHE
