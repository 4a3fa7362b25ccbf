import TorusFHE.Fourier.Swaps
import TorusFHE.Proofs.Fourier.BitReversal
import TorusFHE.Proofs.Torus.WordGadget

/-!
# Swaps make the bit-reversal permutation

Reversing the bits of a position twice changes nothing, so positions come in pairs, and the loop over
all positions swaps each pair once, when it comes to the lower one.  After the first `k` positions the
entries of exactly those pairs have moved that have a position among them.  On words of 64 bits the
reversed position is that of the permutation, and no swap reaches beyond the end.

* `reversedPosition?_eq`: reversed positions on words;
* `Swapped` and `Swapped.exists_step`: what each position of the loop does;
* `bitReversalInPlace?_eq`: the loop computes the permutation by halves;
* `bitReversal_permutes`: what the permutation does to lists of all lengths.
-/

namespace TorusFHE

/-! ## Positions on words -/

theorem Word64.testBit_toNat_reverse (a : UInt64) {b : Nat} (hb : b < 64) :
    (Word64.reverse a).toNat.testBit b = a.toNat.testBit (63 - b) := by
  have hreverse : (Word64.reverse a).toNat.testBit b = a.toBitVec.reverse.getLsbD b :=
    BitVec.testBit_toNat _
  have hbit : a.toNat.testBit (63 - b) = a.toBitVec.getLsbD (63 - b) := BitVec.testBit_toNat _
  rw [hreverse, hbit, BitVec.getLsbD_reverse, BitVec.getMsbD_eq_getLsbD, decide_eq_true hb,
    Bool.true_and]

/-- The upper bits of a reversed word are the reversed lower ones. -/
theorem Word64.reverse_div_two_pow {depth i : Nat} (hdepth : depth ≤ 64) (hi : i < 2 ^ depth) :
    (Word64.reverse (.ofNat i)).toNat / 2 ^ (64 - depth) = reverseIndex depth i := by
  have hword : i < 2 ^ 64 := hi.trans_le (Nat.pow_le_pow_right Nat.two_pos hdepth)
  apply Nat.eq_of_testBit_eq
  intro b
  rw [Nat.testBit_div_two_pow]
  cases Nat.lt_or_ge b depth with
  | inl hb =>
    have hmirror : 63 - (b + (64 - depth)) = depth - 1 - b := by omega
    rw [testBit_toNat_reverse _ (by omega), toNat_ofNat_of_lt hword, hmirror,
      testBit_reverseIndex hb]
  | inr hb =>
    -- Beyond the depth the word has ended, and so has the reversed position.
    have hend : 2 ^ 64 ≤ 2 ^ (b + (64 - depth)) := Nat.pow_le_pow_right Nat.two_pos (by omega)
    have hpow : 2 ^ depth ≤ 2 ^ b := Nat.pow_le_pow_right Nat.two_pos hb
    rw [Nat.testBit_lt_two_pow ((UInt64.toNat_lt _).trans_le hend),
      Nat.testBit_lt_two_pow ((reverseIndex_lt _ _).trans_le hpow)]

theorem reversedPosition?_eq {depth i : Nat} (hpos : 0 < depth) (hdepth : depth ≤ 64)
    (hi : i < 2 ^ depth) : reversedPosition? depth i = some (reverseIndex depth i) := by
  have hindex : reverseIndex depth i < 2 ^ 64 :=
    (reverseIndex_lt depth i).trans_le (Nat.pow_le_pow_right Nat.two_pos hdepth)
  have hshift : Word64.shiftRight? (Word64.reverse (.ofNat i)) (64 - depth) =
      some (.ofNat (reverseIndex depth i)) := by
    have h := Word64.shiftRight?_ofNat (k := 64 - depth) (by omega)
      (Word64.reverse (.ofNat i)).toNat_lt
    rwa [UInt64.ofNat_toNat, Word64.reverse_div_two_pow hdepth hi] at h
  rw [reversedPosition?, hshift, Option.bind_eq_bind, Option.bind_some,
    Word64.toNat_ofNat_of_lt hindex]
  rfl

/-! ## The loop -/

section Loop

variable {α : Type} {depth k : Nat} {a b : Array α}

/-- The array `b` is what the first `k` positions make of `a`. -/
structure Swapped (depth k : Nat) (a b : Array α) : Prop where
  size_eq : b.size = a.size
  /-- A pair with one of its positions among the first `k` has changed places. -/
  moved : ∀ j < 2 ^ depth, j < k ∨ reverseIndex depth j < k → b[j]? = a[reverseIndex depth j]?
  waiting : ∀ j < 2 ^ depth, k ≤ j → k ≤ reverseIndex depth j → b[j]? = a[j]?

theorem Swapped.start (depth : Nat) (a : Array α) : Swapped depth 0 a a where
  size_eq := rfl
  moved _ _ h := by omega
  waiting _ _ _ _ := rfl

section Step

variable (h : Swapped depth k a b) (hk : k < 2 ^ depth)
include h hk

/-- A pair changes places at its lower position. -/
theorem Swapped.swap (hlower : k < reverseIndex depth k) (hi : k < b.size)
    (hj : reverseIndex depth k < b.size) :
    Swapped depth (k + 1) a (b.swap k (reverseIndex depth k) hi hj) := by
  have hback : reverseIndex depth (reverseIndex depth k) = k := reverseIndex_reverseIndex hk
  have hfirst : b[k]? = a[k]? := h.waiting k hk (Nat.le_refl k) hlower.le
  have hsecond : b[reverseIndex depth k]? = a[reverseIndex depth k]? :=
    h.waiting _ (reverseIndex_lt depth k) hlower.le hback.ge
  constructor
  · rw [Array.size_swap, h.size_eq]
  · intro j hjlt hmoved
    rw [Array.getElem?_swap, ← Array.getElem?_eq_getElem hi, ← Array.getElem?_eq_getElem hj,
      hfirst, hsecond]
    split
    · next hpartner => rw [← hpartner, hback]
    · next hpartner =>
      split
      · next hself => rw [hself]
      · next hself =>
        -- Neither position of this pair is `k`, so it had changed places before.
        have hne : reverseIndex depth j ≠ k := by
          rintro rfl
          exact hpartner (reverseIndex_reverseIndex hjlt)
        exact h.moved j hjlt (by omega)
  · intro j hjlt hself hother
    have hpartner : reverseIndex depth k ≠ j := by
      rintro rfl
      omega
    rw [Array.getElem?_swap, if_neg hpartner, if_neg (by omega)]
    exact h.waiting j hjlt (by omega) (by omega)

/-- At its upper position a pair has changed places already; a position that is its own partner has
nothing to swap with. -/
theorem Swapped.skip (hupper : reverseIndex depth k ≤ k) : Swapped depth (k + 1) a b := by
  refine ⟨h.size_eq, ?_, ?_⟩
  · intro j hjlt hmoved
    by_cases hbefore : j < k ∨ reverseIndex depth j < k
    · exact h.moved j hjlt hbefore
    · -- Only `k` itself is new, and then its partner is not below it either.
      have hback : reverseIndex depth (reverseIndex depth j) = j := reverseIndex_reverseIndex hjlt
      obtain rfl : j = k := by
        rcases Nat.lt_or_ge j (k + 1) with hj | hj
        · omega
        · have hpartner : reverseIndex depth j = k := by omega
          rw [hpartner] at hback
          omega
      have hfixed : reverseIndex depth j = j := by omega
      rw [hfixed]
      exact h.waiting j hjlt (Nat.le_refl j) hfixed.ge
  · intro j hjlt hself hother
    exact h.waiting j hjlt (by omega) (by omega)

/-- Each position of the loop keeps within the array, and deals with its pair. -/
theorem Swapped.exists_step (ha : a.size = 2 ^ depth) (hpos : 0 < depth) (hdepth : depth ≤ 64) :
    ∃ c, swapReversed? depth b k = some c ∧ Swapped depth (k + 1) a c := by
  have hposition := reversedPosition?_eq hpos hdepth hk
  by_cases hlower : k < reverseIndex depth k
  · have hi : k < b.size := by rwa [h.size_eq, ha]
    have hj : reverseIndex depth k < b.size := by
      rw [h.size_eq, ha]
      exact reverseIndex_lt depth k
    have hswap : swap? b k (reverseIndex depth k) = some (b.swap k (reverseIndex depth k) hi hj) :=
      dif_pos ⟨hi, hj⟩
    refine ⟨_, ?_, h.swap hk hlower hi hj⟩
    simp [swapReversed?, hposition, hlower, hswap]
  · refine ⟨b, ?_, h.skip hk (Nat.le_of_not_lt hlower)⟩
    simp [swapReversed?, hposition, hlower]

end Step

/-- After the first `k` positions their pairs have changed places. -/
theorem exists_foldlM_swapReversed (ha : a.size = 2 ^ depth) (hpos : 0 < depth)
    (hdepth : depth ≤ 64) (hk : k ≤ 2 ^ depth) :
    ∃ b, (List.range k).foldlM (swapReversed? depth) a = some b ∧ Swapped depth k a b := by
  induction k with
  | zero => exact ⟨a, rfl, .start depth a⟩
  | succ k ih =>
    rcases ih (Nat.le_of_succ_le hk) with ⟨b, hb, hswapped⟩
    rcases hswapped.exists_step hk ha hpos hdepth with ⟨c, hc, hnext⟩
    refine ⟨c, ?_, hnext⟩
    rw [List.range_succ, List.foldlM_append, hb]
    simpa using hc

/-- After all positions the entries stand where the permutation by halves puts them. -/
theorem Swapped.toList_eq {l : List α} (hl : l.length = 2 ^ depth)
    (h : Swapped depth (2 ^ depth) l.toArray b) : b.toList = reverseBits depth l := by
  apply List.ext_getElem?
  intro j
  cases Nat.lt_or_ge j (2 ^ depth) with
  | inl hj =>
    rw [Array.getElem?_toList, h.moved j hj (.inl hj), List.getElem?_toArray,
      getElem?_reverseBits hl hj]
  | inr hj =>
    have hsize : b.size = 2 ^ depth := h.size_eq.trans hl
    rw [List.getElem?_eq_none (by simpa [hsize] using hj),
      List.getElem?_eq_none (by simpa [hl] using hj)]

end Loop

/-! ## Lists of all lengths -/

variable {α : Type}

/-- On lists that a processor can address, the loop computes the permutation, and has a result just
where the permutation has one. -/
theorem bitReversalInPlace?_eq {l : List α} (hl : l.length < 2 ^ 64) :
    bitReversalInPlace? l.toArray = (bitReversal l).toOption.map List.toArray := by
  have hsize : l.toArray.size = l.length := rfl
  rw [bitReversalInPlace?, hsize]
  split
  · next hshort =>
    rw [bitReversal, if_pos hshort]
    rfl
  · next hlong =>
    split
    · next hpower =>
      rcases hpower with ⟨depth, hdepth⟩
      -- More than two entries have positions of at least one bit and fewer than 64.
      have hpos : 0 < depth := by
        rcases Nat.eq_zero_or_pos depth with rfl | hpos
        · omega
        · exact hpos
      have hbound : depth < 64 := by
        rw [hdepth] at hl
        exact (Nat.pow_lt_pow_iff_right Nat.one_lt_two).1 hl
      rcases exists_foldlM_swapReversed (a := l.toArray) hdepth hpos hbound.le (Nat.le_refl _) with
        ⟨b, hb, hswapped⟩
      have hresult : b = (reverseBits depth l).toArray := Array.ext' (hswapped.toList_eq hdepth)
      rw [hdepth, Nat.log2_two_pow, hb, hresult, bitReversal_eq_ok hdepth]
      rfl
    · next hpower =>
      rw [bitReversal, if_neg hlong, if_neg hpower]
      rfl

/-- The entry at each position of the result is that at the reversed position, a second time undoes
the first, and every entry is there as often as before.  Lengths above two that are no powers of two
are refused.  Swaps on words have the same results. -/
theorem bitReversal_permutes (l : List α) :
    (∀ depth i, reverseIndex depth i < 2 ^ depth ∧ ∀ b < depth,
      (reverseIndex depth i).testBit b = i.testBit (depth - 1 - b)) ∧
    (l.length ≤ 2 ∨ l.length.isPowerOfTwo →
      ∃ r, bitReversal l = .ok r ∧ r.length = l.length ∧
        (∀ i < l.length, r[i]? = l[reverseIndex l.length.log2 i]?) ∧
        (l.length ≤ 2 → r = l) ∧ bitReversal r = .ok l ∧ r.Perm l) ∧
    (¬(l.length ≤ 2 ∨ l.length.isPowerOfTwo) →
      bitReversal l = .error (.notPowerOfTwo l.length)) ∧
    (l.length < 2 ^ 64 →
      bitReversalInPlace? l.toArray = (bitReversal l).toOption.map List.toArray) := by
  refine ⟨fun depth i => ⟨reverseIndex_lt depth i, fun b hb => testBit_reverseIndex hb i⟩, ?_, ?_,
    bitReversalInPlace?_eq⟩
  · intro hlength
    rcases eq_nil_or_length_eq_two_pow hlength with rfl | ⟨depth, hdepth⟩
    · exact ⟨[], rfl, rfl, by simp, fun _ => rfl, rfl, .nil⟩
    · have hlen : (reverseBits depth l).length = 2 ^ depth := by rw [length_reverseBits, hdepth]
      refine ⟨reverseBits depth l, bitReversal_eq_ok hdepth, length_reverseBits depth l, ?_, ?_, ?_,
        reverseBits_perm depth l⟩
      · intro i hi
        rw [hdepth, Nat.log2_two_pow]
        exact getElem?_reverseBits hdepth (hdepth ▸ hi)
      · intro hshort
        have hok := bitReversal_eq_ok hdepth
        rw [bitReversal, if_pos hshort] at hok
        exact (Except.ok.inj hok).symm
      · rw [bitReversal_eq_ok hlen, reverseBits_reverseBits hdepth]
  · intro hlength
    rcases not_or.1 hlength with ⟨hlong, hpower⟩
    rw [bitReversal, if_neg hlong, if_neg hpower]

/-- Eight entries: that in position three comes from position six, as the reversal of `011` is `110`.
Three entries are refused. -/
theorem bitReversal_permutes_eight_entries :
    let l : List Nat := [10, 11, 12, 13, 14, 15, 16, 17]
    l.length.isPowerOfTwo ∧ ¬(3 ≤ 2 ∨ Nat.isPowerOfTwo 3) ∧
      (∃ r, bitReversal l = .ok r ∧ r[3]? = some 16 ∧ bitReversal r = .ok l ∧ r.Perm l ∧
        bitReversalInPlace? l.toArray = some r.toArray) ∧
      bitReversal [10, 11, 12] = .error (.notPowerOfTwo 3) := by
  intro l
  have hpower : l.length.isPowerOfTwo := ⟨3, rfl⟩
  have hthree : ¬(3 ≤ 2 ∨ Nat.isPowerOfTwo 3) := by decide
  rcases bitReversal_permutes l with ⟨-, hpermuted, -, hswaps⟩
  rcases hpermuted (.inr hpower) with ⟨r, hr, -, hentry, -, hback, hperm⟩
  have hreverse : reverseIndex l.length.log2 3 = 6 := by decide
  refine ⟨hpower, hthree, ⟨r, hr, ?_, hback, hperm, ?_⟩,
    (bitReversal_permutes [10, 11, 12]).2.2.1 hthree⟩
  · rw [hentry 3 (by decide), hreverse]
    rfl
  · rw [hswaps (by decide), hr]
    rfl

end TorusFHE
