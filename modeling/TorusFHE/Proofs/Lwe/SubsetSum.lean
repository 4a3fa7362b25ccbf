import TorusFHE.Lwe.SubsetSum
import TorusFHE.Proofs.Lwe.Phase
import TorusFHE.Proofs.Random.ChaCha20

/-!
# Phases of subset sums

A subset sum of samples stands for the message plus the phases of the selected samples, whether the
masks are at hand or expanded one at a time.

* `SubsetSum.selectedSum`: the sum of the entries that bits select;
* `SubsetSum.encrypt_phase`: the phase of a subset sum;
* `SubsetSum.exists_encrypt`: samples of one dimension have subset sums;
* `SubsetSum.addSeeded_eq_foldlM`: adding seeded samples is adding the expanded ones.
-/

namespace TorusFHE.SubsetSum

/-- The sum of the entries that the bits select. -/
def selectedSum (bits : List Bool) (xs : TorusVec) : Torus :=
  (List.zipWith (fun selected x => if selected then x else 0) bits xs).sum

theorem selectedSum_cons (b : Bool) (bits : List Bool) (x : Torus) (xs : TorusVec) :
    selectedSum (b :: bits) (x :: xs) = (if b then x else 0) + selectedSum bits xs := by
  simp [selectedSum]

variable {γ : Type} [Generator γ] {s : LweKey}

/-- A step adds the phase of its sample if the sample is selected. -/
theorem step_phase {acc zero : LweSample} {x y : Torus} (hacc : acc.phase s = .ok x)
    (hzero : zero.phase s = .ok y) (g : γ) :
    ∃ acc', step acc zero g = .ok (acc', (Sampler.bit g).2) ∧
      acc'.phase s = .ok (x + if (Sampler.bit g).1 then y else 0) := by
  cases hbit : (Sampler.bit g).1 with
  | false => exact ⟨acc, by simp [step, hbit], by simpa using hacc⟩
  | true =>
    rcases LweSample.add_phase hacc hzero with ⟨sum, hadd, hphase⟩
    exact ⟨sum, by simp [step, hbit, hadd], by simpa using hphase⟩

/-- Steps over samples of known phases add the phases of those that the drawn bits select. -/
theorem foldlM_step_phase {zeros : List LweSample} {ys : TorusVec}
    (hzeros : LweSample.HavePhases s zeros ys) {acc : LweSample} {x : Torus}
    (hacc : acc.phase s = .ok x) (g : γ) :
    let bits := Sampler.bit.repeated zeros.length g
    ∃ c, zeros.foldlM step acc g = .ok (c, bits.2) ∧
      c.phase s = .ok (x + selectedSum bits.1 ys) := by
  induction hzeros generalizing acc x g with
  | nil => exact ⟨acc, rfl, by simpa [selectedSum] using hacc⟩
  | cons hzero _ ih =>
    rcases step_phase hacc hzero g with ⟨acc', hstep, hacc'⟩
    -- The invariant of the fold: the phase of `acc` is the message plus what was selected so far.
    rcases ih hacc' (Sampler.bit g).2 with ⟨c, hrun, hphase⟩
    refine ⟨c, ?_, ?_⟩
    · simp [List.foldlM_cons, hstep, hrun, Sampler.repeated_succ]
    · rw [hphase, List.length_cons, Sampler.repeated_succ, selectedSum_cons, add_assoc]

/-- A subset sum stands for the message plus the phases of the selected samples. -/
theorem encrypt_phase {zeros : List LweSample} {ys : TorusVec}
    (hzeros : LweSample.HavePhases s zeros ys) (m : Torus) (g : γ) :
    let bits := Sampler.bit.repeated zeros.length g
    ∃ c, encrypt s.dimension zeros m g = .ok (c, bits.2) ∧
      c.phase s = .ok (m + selectedSum bits.1 ys) :=
  foldlM_step_phase hzeros (LweSample.phase_trivial m) g

/-- Samples of one dimension can be added whichever of them are selected, and the sum has that
dimension. -/
theorem exists_encrypt {n : Nat} {zeros : List LweSample} (h : ∀ c ∈ zeros, c.dimension = n)
    (m : Torus) (g : γ) :
    ∃ c, encrypt n zeros m g = .ok (c, (Sampler.bit.repeated zeros.length g).2) ∧
      c.dimension = n := by
  -- Under a key of the dimension all samples have phases, so that the sum has one as well.
  have hzeros : ∀ c ∈ zeros, c.dimension = (LweKey.zeros n).dimension := by
    intro c hc
    rw [LweKey.dimension_zeros, h c hc]
  rcases LweSample.exists_havePhases hzeros with ⟨xs, hxs⟩
  rcases encrypt_phase hxs m g with ⟨c, hrun, hphase⟩
  rw [LweKey.dimension_zeros] at hrun
  refine ⟨c, hrun, ?_⟩
  rw [LweSample.dimension_of_phase hphase, LweKey.dimension_zeros]

/-! ## Seeded samples -/

/-- Expansion puts the sample of the first body in front of the others. -/
theorem go_cons (n : Nat) (acc : List LweSample) (b : Torus) (bodies : List Torus)
    (stream : ChaCha20.Stream) :
    expand.go n acc (b :: bodies) stream =
      expand.go n (⟨(ChaCha20.nextMask n stream).1, b⟩ :: acc) bodies
        (ChaCha20.nextMask n stream).2 :=
  rfl

theorem expand_go (n : Nat) (acc : List LweSample) (bodies : List Torus)
    (stream : ChaCha20.Stream) :
    expand.go n acc bodies stream = acc.reverse ++ expand n bodies stream := by
  induction bodies generalizing acc stream with
  | nil => simp [expand, expand.go]
  | cons b bodies ih =>
    rw [expand, go_cons, go_cons, ih, ih [_]]
    simp

/-- The mask of the first sample is the next of the stream. -/
theorem expand_cons (n : Nat) (b : Torus) (bodies : List Torus) (stream : ChaCha20.Stream) :
    expand n (b :: bodies) stream =
      ⟨(ChaCha20.nextMask n stream).1, b⟩ ::
        expand n bodies (ChaCha20.nextMask n stream).2 := by
  rw [expand, go_cons, expand_go]
  rfl

/-- Expansion makes one sample of each body. -/
@[simp] theorem length_expand (n : Nat) (bodies : List Torus) (stream : ChaCha20.Stream) :
    (expand n bodies stream).length = bodies.length := by
  induction bodies generalizing stream with
  | nil => rfl
  | cons b bodies ih => simp [expand_cons, ih]

theorem dimension_of_mem_expand {n : Nat} {bodies : List Torus} {stream : ChaCha20.Stream}
    {c : LweSample} (hc : c ∈ expand n bodies stream) : c.dimension = n := by
  induction bodies generalizing stream with
  | nil => cases hc
  | cons b bodies ih =>
    rw [expand_cons] at hc
    rcases List.mem_cons.1 hc with rfl | hc
    · exact Sampler.length_repeated _ _ _
    · exact ih hc

/-- The mask of sample `i` is made of `n` words, behind those of the `i` masks before it. -/
theorem getElem?_expand (n : Nat) (bodies : List Torus) (seed : Seed) (start i : Nat) :
    (expand n bodies (.ofPosition seed start))[i]? =
      bodies[i]?.map fun b => ⟨ChaCha20.maskAt seed (start + i * n) n, b⟩ := by
  induction bodies generalizing start i with
  | nil => rfl
  | cons b bodies ih =>
    rw [expand_cons, ChaCha20.nextMask_ofPosition]
    cases i with
    | zero => simp
    | succ i =>
      -- The first mask has moved the stream by its own length.
      have hstart : start + n + i * n = start + (i + 1) * n := by ring
      rw [List.getElem?_cons_succ, ih, hstart]
      rfl

/-- Adding seeded samples one mask at a time is adding the expanded samples. -/
theorem addSeeded_eq_foldlM (n : Nat) (acc : LweSample) (bodies : List Torus)
    (stream : ChaCha20.Stream) :
    (addSeeded n acc bodies stream : Draw γ LweSample) =
      (expand n bodies stream).foldlM step acc := by
  induction bodies generalizing acc stream with
  | nil => rfl
  | cons b bodies ih =>
    rw [expand_cons, List.foldlM_cons, addSeeded]
    simp only [ih]

end TorusFHE.SubsetSum
