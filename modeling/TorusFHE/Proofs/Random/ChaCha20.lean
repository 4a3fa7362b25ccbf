import TorusFHE.Proofs.Random.Requests

/-!
# Draws as words of a stream

A stream keeps the current block at hand, but all that it is depends on its seed and its position.
What is drawn from it are therefore the words of the seed from that position on, and each draw goes
on where the last one ended.

* `ChaCha20.Stream.ofPosition`: the stream of a seed from a position on;
* `ChaCha20.nextMask_ofPosition`: what a mask consists of, and what it leaves behind;
* `Generator.Request.sampler_ofPosition`: the same for whatever a generator can be asked for;
* `ChaCha20.Stream.exists_ofPosition_of_reaches`: no request goes back or to another seed.
-/

namespace TorusFHE

namespace ChaCha20

namespace Stream

/-- The stream of a seed from a position on. -/
def ofPosition (seed : Seed) (position : Nat) : Stream :=
  ⟨seed, position, block seed (position / 16), rfl⟩

/-- Going forward is a step of the position, whether or not the block at hand is used up. -/
theorem advance_ofPosition (seed : Seed) (position : Nat) :
    (ofPosition seed position).advance = ofPosition seed (position + 1) := by
  by_cases h : (position + 1) / 16 = position / 16
  · simp [advance, ofPosition, h]
  · simp [advance, ofPosition, h]

/-- One word is taken, and the stream goes on behind it. -/
theorem next_ofPosition (seed : Seed) (position : Nat) :
    Generator.next (ofPosition seed position) =
      (word seed position, ofPosition seed (position + 1)) := by
  rw [← advance_ofPosition]
  rfl

/-- Nothing but the seed and the position makes a stream. -/
theorem eq_ofPosition (s : Stream) : s = ofPosition s.seed s.position := by
  obtain ⟨seed, position, current, rfl⟩ := s
  rfl

/-- What makes one value of one word makes as many values of as many words. -/
theorem repeated_ofPosition {α : Type} {s : Sampler Stream α} {f : UInt32 → α} {seed : Seed}
    (h : ∀ position, s (ofPosition seed position) =
      (f (word seed position), ofPosition seed (position + 1))) (count position : Nat) :
    s.repeated count (ofPosition seed position) =
      ((List.range count).map fun j => f (word seed (position + j)),
        ofPosition seed (position + count)) := by
  induction count generalizing position with
  | zero => rfl
  | succ count ih =>
    rw [Sampler.repeated_succ, h, ih]
    simp [List.range_succ_eq_map, Function.comp_def, Nat.add_assoc, Nat.add_comm 1]

end Stream

/-- Words `start` to `start + n` of the stream of a seed, as the entries of a mask. -/
def maskAt (seed : Seed) (start n : Nat) : TorusVec :=
  (List.range n).map fun j => ⟨word seed (start + j)⟩

@[simp] theorem length_maskAt (seed : Seed) (start n : Nat) : (maskAt seed start n).length = n := by
  simp [maskAt]

theorem maskAt_succ (seed : Seed) (start n : Nat) :
    maskAt seed start (n + 1) = ⟨word seed start⟩ :: maskAt seed (start + 1) n := by
  simp [maskAt, List.range_succ_eq_map, Function.comp_def, Nat.add_assoc, Nat.add_comm 1]

/-- A mask consists of the next words, and the stream goes on behind them. -/
theorem nextMask_ofPosition (n : Nat) (seed : Seed) (position : Nat) :
    nextMask n (.ofPosition seed position) =
      (maskAt seed position n, .ofPosition seed (position + n)) := by
  have hword : ∀ position, Sampler.uniform (Stream.ofPosition seed position) =
      (⟨word seed position⟩, .ofPosition seed (position + 1)) := by
    intro position
    rw [Sampler.uniform, Stream.next_ofPosition]
  exact Stream.repeated_ofPosition hword n position

end ChaCha20

/-! ## Requests -/

namespace Generator.Request

variable {α : Type}

/-- The number of words that an answer takes. -/
def words : Request α → Nat
  | word => 1
  | word64 => 2
  | bytes count => wordCount count

/-- The answer from a sequence of words, the first of them word `n`: words and bytes alike come with
the least significant part first, and a word of which some bytes are used is used up. -/
def answer (word : Nat → UInt32) (n : Nat) : Request α → α
  | .word => word n
  | .word64 => (word n).toUInt64 ||| (word (n + 1)).toUInt64 <<< 32
  | .bytes _ => Vector.ofFn fun i => (word (n + i / 4) >>> UInt32.ofNat (8 * (i % 4))).toUInt8

/-- A stream answers with its next words and goes on behind them. -/
theorem sampler_ofPosition (r : Request α) (seed : Seed) (n : Nat) :
    r.sampler (ChaCha20.Stream.ofPosition seed n) =
      (r.answer (ChaCha20.word seed) n, .ofPosition seed (n + r.words)) := by
  cases r with
  | word => exact ChaCha20.Stream.next_ofPosition seed n
  | word64 =>
    have hpair : sampler word64 (ChaCha20.Stream.ofPosition seed n) =
        wordPair Generator.next (ChaCha20.Stream.ofPosition seed n) := rfl
    simp only [hpair, wordPair, ChaCha20.Stream.next_ofPosition]
    rfl
  | bytes count =>
    have hbytes : sampler (bytes count) (ChaCha20.Stream.ofPosition seed n) =
        wordBytes Generator.next count (ChaCha20.Stream.ofPosition seed n) := rfl
    have hwords := ChaCha20.Stream.repeated_ofPosition (f := id)
      (ChaCha20.Stream.next_ofPosition seed) (wordCount count) n
    rw [hbytes, wordBytes, hwords]
    refine Prod.ext (congrArg Vector.ofFn (funext fun i => ?_)) rfl
    -- Every byte lies in one of the words that were drawn.
    have hi : i.val / 4 < wordCount count := by
      have := i.isLt
      rw [wordCount]
      omega
    simp [List.getD_eq_getElem?_getD, hi]

end Generator.Request

/-- Requests lead forward in the stream of one seed. -/
theorem ChaCha20.Stream.exists_ofPosition_of_reaches {seed : Seed} {n : Nat} {s : Stream}
    (h : Generator.Reaches (ofPosition seed n) s) : ∃ m, n ≤ m ∧ s = ofPosition seed m := by
  induction h with
  | refl => exact ⟨n, le_rfl, rfl⟩
  | tail _ hstep ih =>
    rcases ih with ⟨m, hm, rfl⟩
    cases hstep with
    | request r =>
      refine ⟨m + r.words, hm.trans (Nat.le_add_right _ _), ?_⟩
      rw [r.sampler_ofPosition]

end TorusFHE
