import TorusFHE.Proofs.Scheme.ClientKey

/-!
# Negation of ciphertexts

Negation turns the phase around and leaves the dimension alone.  A bit is read from the half of the
turn that its phase lies in.  Turning around exchanges the halves, but for the two angles that are
their own negatives: nothing and half a turn stay where they are, the one read as true and the other
as false.

* `Torus.neg_eq_self_iff`: the angles that are their own negatives;
* `decodeBit_neg`: what turning around does to a bit;
* `Ciphertext.not_not`: negation undoes itself;
* `Ciphertext.not_exact`: what decryption finds in a ciphertext and in its negation.
-/

namespace TorusFHE

/-! ## Opposite angles -/

theorem Torus.toNat_neg (x : Torus) : (-x).toNat = (2 ^ 32 - x.toNat) % 2 ^ 32 :=
  UInt32.toNat_neg x.word

/-- The angles that are their own negatives are nothing and half a turn. -/
theorem Torus.neg_eq_self_iff (x : Torus) : -x = x ↔ x.toNat = 0 ∨ x.toNat = 2 ^ 31 := by
  have hlt : x.toNat < 2 ^ 32 := x.toNat_lt
  rw [← Torus.toNat_injective.eq_iff, Torus.toNat_neg]
  omega

/-- True is read on the first half of the turn. -/
theorem decodeBit_eq_true_iff (x : Torus) : decodeBit x = true ↔ x.toNat < 2 ^ 31 := by
  simp [decodeBit, Torus.upperHalf]

/-- The bit of the opposite angle is the opposite one, unless the angles are the same. -/
theorem decodeBit_neg (x : Torus) :
    decodeBit (-x) = if -x = x then decodeBit x else !decodeBit x := by
  by_cases hself : -x = x
  · simp [hself]
  · have hlt : x.toNat < 2 ^ 32 := x.toNat_lt
    rw [if_neg hself, Bool.eq_iff_iff, Bool.not_eq_true', ← Bool.not_eq_true,
      decodeBit_eq_true_iff, decodeBit_eq_true_iff, Torus.toNat_neg]
    rw [Torus.neg_eq_self_iff] at hself
    omega

/-! ## Negated ciphertexts -/

theorem LweSample.neg_neg (c : LweSample) : c.neg.neg = c := by
  simp [neg, TorusVec.neg]

namespace Ciphertext

variable {c : Ciphertext} (hc : c.lweDimension.toNat = c.sample.dimension)
include hc

/-- A ciphertext that declares its dimension is the one that its sample makes. -/
theorem ofSample_sample : ofSample c.sample = c := by
  rw [ofSample, ← hc, UInt64.ofNat_toNat]

theorem lweDimension_not : c.not.lweDimension = c.lweDimension := by
  rw [not, ofSample, LweSample.dimension_neg, ← hc, UInt64.ofNat_toNat]

/-- Negation undoes itself. -/
theorem not_not : c.not.not = c := by
  have hsample : c.not.not = ofSample c.sample.neg.neg := rfl
  rw [hsample, LweSample.neg_neg, ofSample_sample hc]

end Ciphertext

/-- Negation undoes itself and keeps the dimension.  For a key of this dimension it negates the phase
and flips the bit that decryption finds, but for the phases nothing and half a turn, where it keeps
the bit.  A key of another dimension refuses a ciphertext and its negation alike. -/
theorem Ciphertext.not_exact {c : Ciphertext} (hc : c.lweDimension.toNat = c.sample.dimension)
    {ck : ClientKey} (hck : ck.lweKey.dimension = ck.params.n) :
    c.not.not = c ∧ c.not.lweDimension = c.lweDimension ∧
      c.not.sample.dimension = c.sample.dimension ∧
      (c.sample.dimension = ck.params.n →
        ∃ x m, c.sample.phase ck.lweKey = .ok x ∧ c.not.sample.phase ck.lweKey = .ok (-x) ∧
          ck.decrypt c = .ok (.ok m) ∧
          ck.decrypt c.not =
            .ok (.ok (if x.toNat = 0 ∨ x.toNat = 2 ^ 31 then m else !m))) ∧
      (c.sample.dimension ≠ ck.params.n →
        ck.decrypt c = .ok (.error (.dimensionMismatch ck.params.n c.sample.dimension)) ∧
          ck.decrypt c.not = ck.decrypt c) := by
  have hdim : c.not.sample.dimension = c.sample.dimension := c.sample.dimension_neg
  have hnot : c.not.lweDimension.toNat = c.not.sample.dimension := by
    rw [lweDimension_not hc, hdim, hc]
  refine ⟨not_not hc, lweDimension_not hc, hdim, ?_, ?_⟩
  · intro hown
    have hphase := LweSample.phase_eq_ok_iff.2 ⟨hown.trans hck.symm, rfl⟩
    have hnegated := LweSample.phase_neg hphase
    refine ⟨_, _, hphase, hnegated, ClientKey.decrypt_of_phase (hc.trans hown) hown hphase, ?_⟩
    have hownNot : c.not.sample.dimension = ck.params.n := hdim.trans hown
    rw [ClientKey.decrypt_of_phase (hnot.trans hownNot) hownNot hnegated, decodeBit_neg]
    simp only [Torus.neg_eq_self_iff]
  · intro hother
    have hotherNot : c.not.sample.dimension ≠ ck.params.n := by rwa [hdim]
    rw [ClientKey.decrypt_of_dimension_ne hother, ClientKey.decrypt_of_dimension_ne hotherNot, hdim]
    exact ⟨rfl, rfl⟩

/-- A phase of half a turn is read as false from both sides, a quarter of a turn as true and then as
false. -/
theorem Ciphertext.not_exact_half_turn :
    let p : Parameters :=
      ⟨2, 1, 2, ⟨0x3f50000000000000⟩, ⟨0x3f50000000000000⟩, 4, 1, 4, 1⟩
    let ck : ClientKey := ⟨⟨[1, 0]⟩, ⟨[⟨[1, 1]⟩]⟩, p⟩
    let half : Ciphertext := ⟨2, ⟨[⟨0x90000000⟩, ⟨7⟩], ⟨0x10000000⟩⟩⟩
    let quarter : Ciphertext := ⟨2, ⟨[⟨0x90000000⟩, ⟨7⟩], ⟨0xd0000000⟩⟩⟩
    (ck.decrypt half = .ok (.ok false) ∧ ck.decrypt half.not = .ok (.ok false)) ∧
      ck.decrypt quarter = .ok (.ok true) ∧ ck.decrypt quarter.not = .ok (.ok false) := by
  intro p ck half quarter
  have hck : ck.lweKey.dimension = ck.params.n := by decide
  constructor
  · obtain ⟨-, -, -, hown, -⟩ := not_exact (c := half) (by decide) hck
    rcases hown (by decide) with ⟨x, m, hx, -, hm, hnot⟩
    have hphase : half.sample.phase ck.lweKey = .ok ⟨0x80000000⟩ := by decide
    have hbit : ck.decrypt half = .ok (.ok false) := by decide
    cases hphase.symm.trans hx
    cases hbit.symm.trans hm
    exact ⟨hbit, hnot⟩
  · obtain ⟨-, -, -, hown, -⟩ := not_exact (c := quarter) (by decide) hck
    rcases hown (by decide) with ⟨x, m, hx, -, hm, hnot⟩
    have hphase : quarter.sample.phase ck.lweKey = .ok ⟨0x40000000⟩ := by decide
    have hbit : ck.decrypt quarter = .ok (.ok true) := by decide
    cases hphase.symm.trans hx
    cases hbit.symm.trans hm
    exact ⟨hbit, hnot⟩

end TorusFHE
