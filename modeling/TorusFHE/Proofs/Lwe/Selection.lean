import Mathlib.Algebra.BigOperators.Intervals
import TorusFHE.Proofs.Lwe.SubsetSum

/-!
# Subset sums over selected positions

A subset sum takes one word for each sample, and the top bit of the word selects the sample.  What
adds up when samples are added, such as the body, an entry of the mask or the phase under a key, is
for the subset sum that of the message plus the sum over the selected positions.  The samples may
come in any order, as long as each of them keeps its word.

* `LweSample.Additive`: what adds up when samples are added;
* `SubsetSum.foldlM_step_additive`: what the steps of a subset sum add up to;
* `SubsetSum.encrypt_perm`: samples in another order, with the same words;
* `SubsetSum.encrypt_sums_selected`: mask, body and phase of a subset sum.
-/

namespace TorusFHE

namespace LweSample

variable {n : Nat}

/-- A quantity that adds up when samples of dimension `n` are added. -/
def Additive (n : Nat) (f : LweSample → Torus) : Prop :=
  ∀ {c d e : LweSample}, c.dimension = n → d.dimension = n → c.add d = .ok e → f e = f c + f d

theorem additive_body : Additive n body :=
  fun _ _ hadd => (add_eq_ok_iff.1 hadd).2

theorem additive_entry (t : Nat) : Additive n fun c => c.mask.getD t 0 := by
  intro c d e _ _ hadd
  rcases TorusVec.add_eq_ok_iff.1 (add_eq_ok_iff.1 hadd).1 with ⟨hlen, hmask⟩
  by_cases ht : t < c.mask.length
  · simp [hmask, List.getD_eq_getElem?_getD, ht, hlen ▸ ht]
  · -- Behind the masks there is nothing to add.
    have hout : d.mask.length ≤ t := hlen ▸ Nat.le_of_not_lt ht
    simp [hmask, List.getD_eq_getElem?_getD, Nat.le_of_not_lt ht, hout]

/-- The phase under a key adds up. -/
theorem additive_phase (s : LweKey) :
    Additive n fun c => c.body - TorusVec.inner c.mask s.coeffs := by
  intro c d e _ _ hadd
  rcases add_eq_ok_iff.1 hadd with ⟨hmasks, hbody⟩
  rcases TorusVec.add_eq_ok_iff.1 hmasks with ⟨hlen, hmask⟩
  simp only [hmask, hbody, TorusVec.inner_zipWith_add hlen]
  ring

end LweSample

namespace SubsetSum

open LweSample

/-! ## Selected positions -/

/-- A word selects its sample by its top bit. -/
def selects (w : UInt32) : Bool :=
  w.toBitVec.msb

/-- The positions that words select. -/
def selected (words : List UInt32) : Finset Nat :=
  (Finset.range words.length).filter fun i => selects (words.getD i 0)

/-- The sum of a quantity over the samples whose words select them. -/
def selectedTotal (f : LweSample → Torus) (zeros : List LweSample) (words : List UInt32) : Torus :=
  ((zeros.zip words).map fun p => if selects p.2 then f p.1 else 0).sum

theorem selectedTotal_cons (f : LweSample → Torus) (c : LweSample) (zeros : List LweSample)
    (w : UInt32) (words : List UInt32) :
    selectedTotal f (c :: zeros) (w :: words) =
      (if selects w then f c else 0) + selectedTotal f zeros words := by
  simp [selectedTotal]

/-- The same sum over positions. -/
theorem selectedTotal_eq_sum {zeros : List LweSample} {words : List UInt32}
    (h : words.length = zeros.length) {f : LweSample → Torus} {x : Nat → Torus}
    (hx : ∀ i c, zeros[i]? = some c → x i = f c) :
    selectedTotal f zeros words = ∑ i ∈ selected words, x i := by
  induction zeros generalizing words x with
  | nil =>
    cases List.length_eq_zero_iff.1 h
    rfl
  | cons c zeros ih =>
    cases words with
    | nil => simp at h
    | cons w words =>
      have htail := ih (by simpa using h) (x := fun i => x (i + 1)) fun i d hd => hx (i + 1) d hd
      rw [selectedTotal_cons, htail, selected, selected, Finset.sum_filter, Finset.sum_filter,
        List.length_cons, Finset.sum_range_succ', add_comm, ← hx 0 c rfl]
      rfl

/-! ## Draws -/

variable {γ : Type} [Generator γ]

/-- The words of a subset sum of `count` samples. -/
def words (count : Nat) : Sampler γ (List UInt32) :=
  Sampler.repeated Generator.next count

@[simp] theorem length_words (count : Nat) (g : γ) : (words count g).1.length = count :=
  Sampler.length_repeated _ _ _

/-- The bit that selects a sample is the top bit of a word. -/
theorem bit_eq (g : γ) :
    Sampler.bit g = (selects (Generator.next g).1, (Generator.next g).2) := by
  simp [Sampler.bit, selects, BitVec.msb_eq_decide]

/-! ## Sums -/

variable {n : Nat}

/-- A step takes one word, and adds the sample if the word selects it. -/
theorem step_additive {acc zero : LweSample} (hacc : acc.dimension = n)
    (hzero : zero.dimension = n) (g : γ) :
    ∃ acc', step acc zero g = .ok (acc', (Generator.next g).2) ∧ acc'.dimension = n ∧
      ∀ f, Additive n f → f acc' = f acc + if selects (Generator.next g).1 then f zero else 0 := by
  cases hbit : selects (Generator.next g).1 with
  | false => exact ⟨acc, by simp [step, bit_eq, hbit], hacc, by simp⟩
  | true =>
    have hlen : acc.mask.length = zero.mask.length := hacc.trans hzero.symm
    let sum : LweSample := ⟨List.zipWith (· + ·) acc.mask zero.mask, acc.body + zero.body⟩
    have hadd : acc.add zero = .ok sum :=
      add_eq_ok_iff.2 ⟨TorusVec.add_eq_ok_iff.2 ⟨hlen, rfl⟩, rfl⟩
    have hsum : sum.dimension = n := by
      rw [dimension] at hacc
      simp [sum, dimension, ← hlen, hacc]
    refine ⟨sum, by simp [step, bit_eq, hbit, hadd], hsum, ?_⟩
    intro f hf
    simpa using hf hacc hzero hadd

/-- All steps take as many words as there are samples, and add the selected ones. -/
theorem foldlM_step_additive {zeros : List LweSample} (hzeros : ∀ c ∈ zeros, c.dimension = n)
    {acc : LweSample} (hacc : acc.dimension = n) (g : γ) :
    ∃ c, zeros.foldlM step acc g = .ok (c, (words zeros.length g).2) ∧ c.dimension = n ∧
      ∀ f, Additive n f → f c = f acc + selectedTotal f zeros (words zeros.length g).1 := by
  induction zeros generalizing acc g with
  | nil => exact ⟨acc, rfl, hacc, by simp [selectedTotal]⟩
  | cons zero zeros ih =>
    rcases step_additive hacc (hzeros zero (by simp)) g with ⟨acc', hstep, hacc', hfirst⟩
    -- The invariant of the fold: `acc` is the message and what was selected so far.
    rcases ih (fun c hc => hzeros c (by simp [hc])) hacc' (Generator.next g).2 with
      ⟨c, hrun, hc, hrest⟩
    have hwords : words (zeros.length + 1) g =
        ((Generator.next g).1 :: (words zeros.length (Generator.next g).2).1,
          (words zeros.length (Generator.next g).2).2) :=
      Sampler.repeated_succ _ _ _
    rw [List.length_cons, hwords]
    refine ⟨c, by simp [List.foldlM_cons, hstep, hrun], hc, ?_⟩
    intro f hf
    rw [hrest f hf, hfirst f hf, selectedTotal_cons, add_assoc]

/-- Samples are equal if everything that adds up is the same for both. -/
theorem eq_of_additive {c d : LweSample} (hc : c.dimension = n) (hd : d.dimension = n)
    (h : ∀ f, Additive n f → f c = f d) : c = d := by
  have hlen : c.mask.length = d.mask.length := hc.trans hd.symm
  refine LweSample.ext (List.ext_getElem hlen fun t ht ht' => ?_) (h _ additive_body)
  have hentry : c.mask.getD t 0 = d.mask.getD t 0 := h _ (additive_entry t)
  simpa [List.getD_eq_getElem?_getD, ht, ht'] using hentry

/-- A permutation of the samples together with their words leaves the sum as it is. -/
theorem selectedTotal_perm {zeros zeros' : List LweSample} {ws ws' : List UInt32}
    (h : (zeros'.zip ws').Perm (zeros.zip ws)) (f : LweSample → Torus) :
    selectedTotal f zeros' ws' = selectedTotal f zeros ws :=
  (h.map _).sum_eq

/-- What adds up is, for a subset sum, that of the message and of the selected samples. -/
theorem encrypt_additive {zeros : List LweSample} (hzeros : ∀ c ∈ zeros, c.dimension = n)
    (m : Torus) (g : γ) :
    ∃ c, encrypt n zeros m g = .ok (c, (words zeros.length g).2) ∧ c.dimension = n ∧
      ∀ f, Additive n f →
        f c = f (.trivial n m) + selectedTotal f zeros (words zeros.length g).1 :=
  have htrivial : (LweSample.trivial n m).dimension = n := List.length_replicate
  foldlM_step_additive hzeros htrivial g

/-- The same over the selected positions. -/
theorem encrypt_positions {zeros : List LweSample} (hzeros : ∀ c ∈ zeros, c.dimension = n)
    (m : Torus) (g : γ) :
    ∃ c, encrypt n zeros m g = .ok (c, (words zeros.length g).2) ∧ c.dimension = n ∧
      ∀ (f : LweSample → Torus) (x : Nat → Torus), Additive n f →
        (∀ i d, zeros[i]? = some d → x i = f d) →
          f c = f (.trivial n m) + ∑ i ∈ selected (words zeros.length g).1, x i := by
  rcases encrypt_additive hzeros m g with ⟨c, hrun, hdim, hadd⟩
  refine ⟨c, hrun, hdim, ?_⟩
  intro f x hf hx
  rw [hadd f hf, selectedTotal_eq_sum (length_words _ _) hx]

/-- The samples may come in another order, and their words from another generator. -/
theorem encrypt_perm {δ : Type} [Generator δ] {zeros zeros' : List LweSample}
    (hzeros : ∀ c ∈ zeros, c.dimension = n) (m : Torus) (g : γ) (g' : δ)
    (hperm : (zeros'.zip (words zeros'.length g').1).Perm (zeros.zip (words zeros.length g).1))
    {c : LweSample} (h : encrypt n zeros m g = .ok (c, (words zeros.length g).2)) :
    encrypt n zeros' m g' = .ok (c, (words zeros'.length g').2) := by
  have hsamples : zeros'.Perm zeros := by
    have hfst := hperm.map Prod.fst
    rwa [List.map_fst_zip (length_words _ _).ge, List.map_fst_zip (length_words _ _).ge] at hfst
  have hzeros' : ∀ d ∈ zeros', d.dimension = n := fun d hd => hzeros d (hsamples.mem_iff.1 hd)
  rcases encrypt_additive hzeros m g with ⟨c₀, hrun, hdim, hadd⟩
  cases hrun.symm.trans h
  rcases encrypt_additive hzeros' m g' with ⟨c', hrun', hdim', hadd'⟩
  -- Both sums agree on everything that adds up.
  have heq : c' = c := eq_of_additive hdim' hdim fun f hf => by
    rw [hadd' f hf, hadd f hf, selectedTotal_perm hperm]
  rw [hrun', heq]

/-- A subset sum of samples of dimension `n` takes one word for each sample.  Its mask is the sum of
the masks at the selected positions, its body that of the bodies and the message, its phase under
every key that of the phases and the message.  It does not depend on the order in which the samples
come with their words. -/
theorem encrypt_sums_selected {zeros : List LweSample} (hzeros : ∀ c ∈ zeros, c.dimension = n)
    (m : Torus) (g : γ) :
    let drawn := words zeros.length g
    let I := selected drawn.1
    ∃ c, encrypt n zeros m g = .ok (c, drawn.2) ∧ c.dimension = n ∧
      (∀ t < n, c.mask.getD t 0 = ∑ i ∈ I, (zeros.getD i ⟨[], 0⟩).mask.getD t 0) ∧
      c.body = m + ∑ i ∈ I, (zeros.getD i ⟨[], 0⟩).body ∧
      (∀ s : LweKey, s.dimension = n →
        ∃ phases, HavePhases s zeros phases ∧ c.phase s = .ok (m + ∑ i ∈ I, phases.getD i 0)) ∧
      ∀ {δ : Type} [Generator δ] (zeros' : List LweSample) (g' : δ),
        let drawn' := words zeros'.length g'
        (zeros'.zip drawn'.1).Perm (zeros.zip drawn.1) →
          encrypt n zeros' m g' = .ok (c, drawn'.2) := by
  intro drawn I
  rcases encrypt_positions hzeros m g with ⟨c, hrun, hdim, hsum⟩
  have hposition : ∀ (f : LweSample → Torus) i d, zeros[i]? = some d →
      f (zeros.getD i ⟨[], 0⟩) = f d := by
    intro f i d hd
    rw [List.getD_eq_getElem?_getD, hd, Option.getD_some]
  refine ⟨c, hrun, hdim, ?_, ?_, ?_, ?_⟩
  · intro t ht
    have hentry : (LweSample.trivial n m).mask.getD t 0 = 0 := by
      simp [LweSample.trivial, TorusVec.zeros, ht]
    rw [hsum _ _ (additive_entry t) (hposition _), hentry, zero_add]
  · exact hsum _ _ additive_body (hposition _)
  · intro s hs
    rcases exists_havePhases fun d hd => (hzeros d hd).trans hs.symm with ⟨phases, hphases⟩
    have hphase : ∀ i d, zeros[i]? = some d →
        phases.getD i 0 = d.body - TorusVec.inner d.mask s.coeffs := by
      intro i d hd
      rcases exists_getElem?_of_forall₂ hphases.flip hd with ⟨x, hx, hxphase⟩
      rw [List.getD_eq_getElem?_getD, hx]
      exact (phase_eq_ok_iff.1 hxphase).2
    -- A message alone is its own phase.
    have htrivial : m - TorusVec.inner (TorusVec.zeros n) s.coeffs = m := by
      rw [TorusVec.inner_zeros, sub_zero]
    have hvalue := hsum _ _ (additive_phase s) hphase
    simp only [LweSample.trivial, htrivial] at hvalue
    exact ⟨phases, hphases, phase_eq_ok_iff.2 ⟨hdim.trans hs.symm, hvalue.symm⟩⟩
  · intro δ _ zeros' g' drawn' hperm
    exact encrypt_perm hzeros m g g' hperm hrun

/-- The first and the last of three samples are selected, also where the samples come in another
order and their words from another generator. -/
theorem encrypt_sums_selected_two_of_three :
    let zeros : List LweSample :=
      [⟨[⟨7⟩, 1], ⟨5⟩⟩, ⟨[⟨9⟩, 0], ⟨8⟩⟩, ⟨[⟨0xfffffffe⟩, 1], ⟨0xffffffff⟩⟩]
    let zeros' : List LweSample :=
      [⟨[⟨9⟩, 0], ⟨8⟩⟩, ⟨[⟨0xfffffffe⟩, 1], ⟨0xffffffff⟩⟩, ⟨[⟨7⟩, 1], ⟨5⟩⟩]
    let start : CyclicWords := ⟨#[0x80000000, 0x7fffffff, 0xffffffff, 3], 0⟩
    let start' : CyclicWords := ⟨#[0x7fffffff, 0xffffffff, 0x80000000], 0⟩
    let c : LweSample := ⟨[⟨5⟩, ⟨2⟩], ⟨104⟩⟩
    (∀ d ∈ zeros, d.dimension = 2) ∧
      encrypt 2 zeros ⟨100⟩ start = .ok (c, ⟨start.words, 3⟩) ∧
      c.body = ⟨100⟩ + ∑ i ∈ {0, 2}, (zeros.getD i ⟨[], 0⟩).body ∧
      encrypt 2 zeros' ⟨100⟩ start' = .ok (c, start') := by
  intro zeros zeros' start start' c
  have hzeros : ∀ d ∈ zeros, d.dimension = 2 := by decide
  have hselected : selected (words zeros.length start).1 = {0, 2} := by decide
  obtain ⟨c', hrun, -, -, hbody, -, hperm⟩ := encrypt_sums_selected hzeros ⟨100⟩ start
  have hc : encrypt 2 zeros ⟨100⟩ start = .ok (c, ⟨start.words, 3⟩) := by with_unfolding_all rfl
  cases hrun.symm.trans hc
  rw [hselected] at hbody
  have hfinal : (words zeros'.length start').2 = start' := by with_unfolding_all rfl
  have hother := hperm zeros' start' (by decide)
  rw [hfinal] at hother
  exact ⟨hzeros, hc, hbody, hother⟩

end SubsetSum

end TorusFHE
