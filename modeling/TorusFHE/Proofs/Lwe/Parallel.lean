import TorusFHE.Proofs.Lwe.KeySwitch
import TorusFHE.Proofs.Lwe.SubsetSum
import TorusFHE.Proofs.Random.InStep

/-!
# Encryptions under two keys

Two keys of one dimension encrypt in step: both draw the same mask and the same noise, whatever the
keys and the messages are.  Only the bodies tell the two runs apart, by the product of the mask with
the difference of the keys, and by the difference of the messages.

* `LweSample.Parallel` and `LweSample.AllParallel`: samples of two such runs;
* `LweKey.encrypt_inStep` and `LweKey.mapM_encrypt_inStep`: fresh encryptions;
* `SubsetSum.exists_foldlM_step`: subset sums of one list of samples.
-/

namespace TorusFHE

namespace LweSample

/-- Samples of one mask, of the dimension of the key `s`.  The bodies differ by the product of the
mask with the difference of the keys, and by `x`. -/
structure Parallel (s s' : LweKey) (x : Torus) (c c' : LweSample) : Prop where
  dimension : c.dimension = s.dimension
  mask : c'.mask = c.mask
  body : c.body - c'.body =
    TorusVec.inner c.mask (List.zipWith (· - ·) s.coeffs s'.coeffs) + x

/-- Samples of two runs, pair by pair, with the differences of their messages. -/
inductive AllParallel (s s' : LweKey) : TorusVec → List LweSample → List LweSample → Prop
  | nil : AllParallel s s' [] [] []
  | cons {x : Torus} {xs : TorusVec} {c c' : LweSample} {cs cs' : List LweSample} :
    Parallel s s' x c c' → AllParallel s s' xs cs cs' →
      AllParallel s s' (x :: xs) (c :: cs) (c' :: cs')

namespace AllParallel

variable {s s' : LweKey} {xs : TorusVec} {cs cs' : List LweSample}

theorem length_eq (h : AllParallel s s' xs cs cs') :
    cs.length = xs.length ∧ cs'.length = xs.length := by
  induction h with
  | nil => exact ⟨rfl, rfl⟩
  | cons _ _ ih => simp [ih]

/-- There is a pair at each position. -/
theorem exists_getElem? (h : AllParallel s s' xs cs cs') {i : Nat} {x : Torus}
    (hx : xs[i]? = some x) :
    ∃ c c', cs[i]? = some c ∧ cs'[i]? = some c' ∧ Parallel s s' x c c' := by
  induction h generalizing i with
  | nil => simp at hx
  | cons hhead _ ih =>
    cases i with
    | zero =>
      cases hx
      exact ⟨_, _, rfl, rfl, hhead⟩
    | succ i => exact ih hx

end AllParallel

end LweSample

open Draw LweSample

variable {γ : Type}

namespace LweKey

variable {s s' : LweKey}

/-- Under one mask, the product with the key and the message go into the body only. -/
theorem encryptWithMask_inStep (hs : s'.dimension = s.dimension) {mask : TorusVec}
    (hmask : mask.length = s.dimension) (m m' : Torus) (noise : Sampler γ Torus) :
    InStep (s.encryptWithMask m mask noise) (s'.encryptWithMask m' mask noise)
      fun c c' => c.mask = mask ∧ Parallel s s' (m - m') c c' := by
  have hdot : mask.dot s.coeffs = .ok (TorusVec.inner mask s.coeffs) :=
    TorusVec.dot_eq_ok_iff.2 ⟨hmask, rfl⟩
  have hdot' : mask.dot s'.coeffs = .ok (TorusVec.inner mask s'.coeffs) :=
    TorusVec.dot_eq_ok_iff.2 ⟨hmask.trans hs.symm, rfl⟩
  refine (InStep.sample noise).bind ?_
  rintro e _ ⟨rfl, -⟩
  refine (InStep.lift hdot hdot').bind ?_
  rintro _ _ ⟨rfl, rfl⟩
  refine .pure ⟨rfl, hmask, rfl, ?_⟩
  rw [TorusVec.inner_zipWith_sub_right hs.symm]
  ring

/-- The mask of a seeded encryption is that of its seed, under either key. -/
theorem encryptSeeded_inStep (hs : s'.dimension = s.dimension) (m m' : Torus) (seed : Seed)
    (noise : Sampler γ Torus) :
    InStep (s.encryptSeeded m seed noise) (s'.encryptSeeded m' seed noise) fun c c' =>
      c'.seed = c.seed ∧
        Parallel s s' (m - m') (c.expand s.dimension) (c'.expand s.dimension) := by
  have hlen : (ChaCha20.nextMask s.dimension (.ofSeed seed)).1.length = s.dimension :=
    Sampler.length_repeated _ _ _
  have hmasked := encryptWithMask_inStep hs hlen m m' noise
  rw [encryptSeeded, encryptSeeded, hs]
  refine hmasked.map _ _ ?_
  rintro ⟨_, b⟩ ⟨mask, b'⟩ ⟨rfl, hparallel⟩
  -- Expansion puts either body back behind the mask that it was made with.
  cases hparallel.mask
  exact ⟨rfl, hparallel⟩

variable [Generator γ]

/-- The mask is drawn before the key is looked at. -/
theorem encrypt_inStep (hs : s'.dimension = s.dimension) (m m' : Torus)
    (noise : Sampler γ Torus) :
    InStep (s.encrypt m noise) (s'.encrypt m' noise) (Parallel s s' (m - m')) := by
  rw [encrypt, encrypt, hs]
  refine (InStep.sample _).bind ?_
  rintro mask _ ⟨rfl, g, hmask⟩
  have hlen : mask.length = s.dimension := by rw [← hmask, Sampler.length_repeated]
  exact (encryptWithMask_inStep hs hlen m m' noise).imp fun _ _ h => h.2

/-- Encryptions in a row stay in step. -/
theorem mapM_encrypt_inStep (hs : s'.dimension = s.dimension) (noise : Sampler γ Torus)
    {ms ms' : TorusVec} (hlen : ms.length = ms'.length) :
    InStep (ms.mapM fun m => s.encrypt m noise) (ms'.mapM fun m => s'.encrypt m noise)
      (AllParallel s s' (List.zipWith (· - ·) ms ms')) := by
  induction ms generalizing ms' with
  | nil =>
    cases List.length_eq_zero_iff.1 hlen.symm
    exact .pure .nil
  | cons m ms ih =>
    cases ms' with
    | nil => simp at hlen
    | cons m' ms' =>
      rw [List.mapM_cons, List.mapM_cons]
      refine (encrypt_inStep hs m m' noise).bind fun c c' hhead => ?_
      refine (ih (by simpa using hlen)).bind fun cs cs' htail => ?_
      exact .pure (.cons hhead htail)

end LweKey

/-- A key-switching key has masks that depend on neither of its two keys. -/
theorem KeySwitchingKey.generate_inStep [Generator γ] (g : Gadget) {source source' : TorusVec}
    (hsource : source.length = source'.length) {target target' : LweKey}
    (htarget : target'.dimension = target.dimension) (noise : Sampler γ Torus) :
    InStep (generate g source target noise) (generate g source' target' noise) fun k k' =>
      AllParallel target target'
        (List.zipWith (· - ·) (plaintexts g source) (plaintexts g source'))
        k.samples k'.samples := by
  have hlen : (plaintexts g source).length = (plaintexts g source').length := by
    rw [length_plaintexts, length_plaintexts, hsource]
  exact (LweKey.mapM_encrypt_inStep htarget noise hlen).map _ _ fun _ _ h => h

/-! ## Subset sums -/

namespace SubsetSum

variable [Generator γ] {acc acc' c : LweSample} {final : γ}

/-- What a step adds depends on the drawn bit and on the mask so far, and not on the body. -/
theorem exists_step {zero : LweSample} {g : γ} (hmask : acc'.mask = acc.mask)
    (h : step acc zero g = .ok (c, final)) :
    ∃ c', step acc' zero g = .ok (c', final) ∧ c'.mask = c.mask ∧
      c.body - c'.body = acc.body - acc'.body := by
  cases hbit : (Sampler.bit g).1 with
  | false =>
    simp only [step, Draw.bind_apply, Draw.sample_apply, ok_bind, hbit] at h ⊢
    cases h
    exact ⟨acc', rfl, hmask, rfl⟩
  | true =>
    simp only [step, Draw.bind_apply, Draw.sample_apply, ok_bind, hbit, if_true] at h ⊢
    rcases Draw.lift_apply_eq_ok_iff.1 h with ⟨hadd, rfl⟩
    rcases LweSample.add_eq_ok_iff.1 hadd with ⟨hsum, hbody⟩
    have hadd' : acc'.add zero = .ok ⟨c.mask, acc'.body + zero.body⟩ :=
      LweSample.add_eq_ok_iff.2 ⟨by rw [hmask, hsum], rfl⟩
    refine ⟨⟨c.mask, acc'.body + zero.body⟩, by rw [hadd', Draw.lift_ok], rfl, ?_⟩
    rw [hbody, add_sub_add_right_eq_sub]

/-- Nor does what all steps add. -/
theorem exists_foldlM_step {zeros : List LweSample} {g : γ} (hmask : acc'.mask = acc.mask)
    (h : zeros.foldlM step acc g = .ok (c, final)) :
    ∃ c', zeros.foldlM step acc' g = .ok (c', final) ∧ c'.mask = c.mask ∧
      c.body - c'.body = acc.body - acc'.body := by
  induction zeros generalizing acc acc' g with
  | nil =>
    cases h
    exact ⟨acc', rfl, hmask, rfl⟩
  | cons zero zeros ih =>
    rw [List.foldlM_cons] at h ⊢
    rcases Draw.bind_apply_eq_ok_iff.1 h with ⟨sum, g₁, hstep, hrest⟩
    rcases exists_step hmask hstep with ⟨sum', hstep', hsum, hbody⟩
    rcases ih hsum hrest with ⟨c', hrest', hc, hdiff⟩
    exact ⟨c', Draw.bind_apply_eq_ok_iff.2 ⟨sum', g₁, hstep', hrest'⟩, hc, hdiff.trans hbody⟩

/-- Two messages summed with the same samples leave one mask and one state. -/
theorem exists_encrypt_of_eq_ok {n : Nat} {zeros : List LweSample} {m : Torus} {g : γ}
    (h : encrypt n zeros m g = .ok (c, final)) (m' : Torus) :
    ∃ c', encrypt n zeros m' g = .ok (c', final) ∧ c'.mask = c.mask ∧ c.body - c'.body = m - m' :=
  have hmask : (LweSample.trivial n m').mask = (LweSample.trivial n m).mask := rfl
  exists_foldlM_step hmask h

end SubsetSum

end TorusFHE
