import TorusFHE.Lwe.Sample
import TorusFHE.Proofs.Random.Draw
import TorusFHE.Proofs.Torus.Vector

/-!
# Phases of samples

The phase is linear in the sample, and the phase of an encryption is its message plus the noise that
was drawn for it.  Encryption never faults: the mask is as long as the key.

* `LweSample.phase_eq_ok_iff`: which samples have a phase, and what it is;
* `LweKey.encrypt_phase` and `LweKey.encryptSeeded_phase`: fresh encryptions;
* `LweKey.mapM_encrypt_follows`: encryptions of several messages in a row.
-/

namespace TorusFHE

/-- A key that does for any argument about dimensions alone. -/
def LweKey.zeros (n : Nat) : LweKey :=
  ⟨TorusVec.zeros n⟩

@[simp] theorem LweKey.dimension_zeros (n : Nat) : (zeros n).dimension = n :=
  List.length_replicate

namespace LweSample

variable {s : LweKey} {c d : LweSample} {x y : Torus}

/-- A sample has a phase exactly if it has the dimension of the key. -/
theorem phase_eq_ok_iff :
    c.phase s = .ok x ↔
      c.dimension = s.dimension ∧ x = c.body - TorusVec.inner c.mask s.coeffs := by
  simp only [phase, bind_eq_ok_iff, TorusVec.dot_eq_ok_iff, pure_eq_ok, Except.ok.injEq]
  constructor
  · rintro ⟨_, ⟨hlen, rfl⟩, rfl⟩
    exact ⟨hlen, rfl⟩
  · rintro ⟨hlen, rfl⟩
    exact ⟨_, ⟨hlen, rfl⟩, rfl⟩

theorem dimension_of_phase (h : c.phase s = .ok x) : c.dimension = s.dimension :=
  (phase_eq_ok_iff.1 h).1

theorem phase_trivial (m : Torus) : (LweSample.trivial s.dimension m).phase s = .ok m := by
  rw [phase_eq_ok_iff]
  constructor
  · simp [LweSample.trivial, dimension, TorusVec.zeros]
  · simp [LweSample.trivial, TorusVec.inner_zeros]

@[simp] theorem dimension_neg (c : LweSample) : c.neg.dimension = c.dimension := by
  simp [neg, dimension, TorusVec.neg]

theorem phase_neg (h : c.phase s = .ok x) : c.neg.phase s = .ok (-x) := by
  rcases phase_eq_ok_iff.1 h with ⟨hlen, rfl⟩
  rw [phase_eq_ok_iff]
  constructor
  · simpa using hlen
  · simp only [neg, TorusVec.inner_neg]
    ring

/-- A sum has the sum of the masks and that of the bodies, if the masks can be added. -/
theorem add_eq_ok_iff {e : LweSample} :
    c.add d = .ok e ↔ c.mask.add d.mask = .ok e.mask ∧ e.body = c.body + d.body := by
  simp only [add, bind_eq_ok_iff, pure_eq_ok, Except.ok.injEq]
  constructor
  · rintro ⟨mask, hmask, rfl⟩
    exact ⟨hmask, rfl⟩
  · rintro ⟨hmask, hbody⟩
    exact ⟨e.mask, hmask, by rw [← hbody]⟩

/-- Samples that have phases can be added, and their phases add up. -/
theorem add_phase (hc : c.phase s = .ok x) (hd : d.phase s = .ok y) :
    ∃ z, c.add d = .ok z ∧ z.phase s = .ok (x + y) := by
  rcases phase_eq_ok_iff.1 hc with ⟨hclen, rfl⟩
  rcases phase_eq_ok_iff.1 hd with ⟨hdlen, rfl⟩
  have hlen : c.mask.length = d.mask.length := hclen.trans hdlen.symm
  have hadd : c.mask.add d.mask = .ok (List.zipWith (· + ·) c.mask d.mask) :=
    TorusVec.add_eq_ok_iff.2 ⟨hlen, rfl⟩
  -- The product with the key is linear in the mask.
  refine ⟨⟨List.zipWith (· + ·) c.mask d.mask, c.body + d.body⟩, by simp [add, hadd], ?_⟩
  rw [phase_eq_ok_iff]
  constructor
  · simpa [dimension, ← hlen] using hclen
  · rw [TorusVec.inner_zipWith_add hlen]
    ring

/-- The samples have these phases, in order. -/
def HavePhases (s : LweKey) (cs : List LweSample) (xs : TorusVec) : Prop :=
  List.Forall₂ (fun c x => c.phase s = .ok x) cs xs

theorem dimension_of_mem_of_havePhases {cs : List LweSample} {xs : TorusVec}
    (h : HavePhases s cs xs) (hc : c ∈ cs) : c.dimension = s.dimension := by
  rcases exists_mem_of_forall₂ h hc with ⟨x, -, hphase⟩
  exact dimension_of_phase hphase

/-- Samples of the dimension of a key have phases, whatever they are. -/
theorem exists_havePhases {cs : List LweSample} (h : ∀ c ∈ cs, c.dimension = s.dimension) :
    ∃ xs, HavePhases s cs xs := by
  induction cs with
  | nil => exact ⟨[], .nil⟩
  | cons c cs ih =>
    rcases ih (fun d hd => h d (by simp [hd])) with ⟨xs, hxs⟩
    exact ⟨_ :: xs, .cons (phase_eq_ok_iff.2 ⟨h c (by simp), rfl⟩) hxs⟩

/-- Weighed by numbers, the phases are the weighed bodies less the weighed products of the masks. -/
theorem inner_of_havePhases {cs : List LweSample} {xs weights : TorusVec}
    (h : HavePhases s cs xs) :
    TorusVec.inner weights xs =
      TorusVec.inner weights (cs.map body)
        - TorusVec.inner weights ((cs.map mask).map (TorusVec.inner · s.coeffs)) := by
  induction h generalizing weights with
  | nil => simp
  | cons hc _ ih =>
    cases weights with
    | nil => simp
    | cons w weights =>
      -- The head contributes its weighed phase, which is body less product by definition.
      rcases phase_eq_ok_iff.1 hc with ⟨-, rfl⟩
      simp only [List.map_cons, TorusVec.inner_cons_cons, ih]
      ring

end LweSample

/-! ## Encryptions -/

variable {γ : Type}

namespace LweKey

variable (s : LweKey)

/-- An encryption with a mask of the dimension of the key has the message and the noise as phase. -/
theorem encryptWithMask_phase (m : Torus) (mask : TorusVec) (hmask : mask.length = s.dimension)
    (noise : Sampler γ Torus) (g : γ) :
    ∃ c, s.encryptWithMask m mask noise g = .ok (c, (noise g).2) ∧ c.mask = mask ∧
      c.phase s = .ok (m + (noise g).1) := by
  have hdot : mask.dot s.coeffs = .ok (TorusVec.inner mask s.coeffs) :=
    TorusVec.dot_eq_ok_iff.2 ⟨hmask, rfl⟩
  refine ⟨⟨mask, TorusVec.inner mask s.coeffs + (noise g).1 + m⟩, ?_, rfl, ?_⟩
  · simp [encryptWithMask, hdot]
  · rw [LweSample.phase_eq_ok_iff]
    refine ⟨hmask, ?_⟩
    ring

/-- A sample is the encryption with its mask of every message that its phase is the noise away
from. -/
theorem encryptWithMask_eq_ok {c : LweSample} {m : Torus} {noise : Sampler γ Torus} {g : γ}
    (h : c.phase s = .ok (m + (noise g).1)) :
    s.encryptWithMask m c.mask noise g = .ok (c, (noise g).2) := by
  rcases LweSample.phase_eq_ok_iff.1 h with ⟨hdim, hphase⟩
  rcases s.encryptWithMask_phase m c.mask hdim noise g with ⟨d, hrun, hmask, hd⟩
  -- With the same mask and the same phase, the bodies agree as well.
  have hbody : d.body = c.body := by
    rw [(LweSample.phase_eq_ok_iff.1 hd).2, hmask] at hphase
    exact sub_left_injective hphase
  rw [hrun, LweSample.ext hmask hbody]

/-- The mask of a seeded encryption is expanded to the dimension of the key. -/
theorem encryptSeeded_phase (m : Torus) (seed : Seed) (noise : Sampler γ Torus) (g : γ) :
    ∃ c, s.encryptSeeded m seed noise g = .ok (c, (noise g).2) ∧
      (c.expand s.dimension).phase s = .ok (m + (noise g).1) := by
  have hlen : (ChaCha20.nextMask s.dimension (.ofSeed seed)).1.length = s.dimension :=
    Sampler.length_repeated _ _ _
  rcases s.encryptWithMask_phase m _ hlen noise g with ⟨c, hrun, hmask, hphase⟩
  refine ⟨⟨seed, c.body⟩, by simp [encryptSeeded, hrun], ?_⟩
  -- Expanding the seed again yields the mask that the body was made with.
  have hexpand : SeededSample.expand ⟨seed, c.body⟩ s.dimension = c := by
    rw [SeededSample.expand, ← hmask]
  rw [hexpand, hphase]

variable [Generator γ]

/-- The noise of an encryption that draws its mask of `n` entries first. -/
def maskedNoise (n : Nat) (noise : Sampler γ Torus) : Sampler γ Torus := fun g =>
  noise (Sampler.uniform.repeated n g).2

/-- An encryption has the message and the noise as phase. -/
theorem encrypt_phase (m : Torus) (noise : Sampler γ Torus) (g : γ) :
    ∃ c, s.encrypt m noise g = .ok (c, (maskedNoise s.dimension noise g).2) ∧
      c.phase s = .ok (m + (maskedNoise s.dimension noise g).1) := by
  let mask := Sampler.uniform.repeated s.dimension g
  have hlen : mask.1.length = s.dimension := Sampler.length_repeated _ _ _
  rcases s.encryptWithMask_phase m mask.1 hlen noise mask.2 with ⟨c, hrun, -, hphase⟩
  exact ⟨c, by simp [encrypt, maskedNoise, mask, hrun], hphase⟩

/-- Encryptions in a row have the messages and the noises as phases. -/
theorem mapM_encrypt_follows (ms : TorusVec) (noise : Sampler γ Torus) :
    (ms.mapM fun m => s.encrypt m noise).Follows
      ((maskedNoise s.dimension noise).repeated ms.length)
      fun cs es => LweSample.HavePhases s cs (List.zipWith (· + ·) ms es) := by
  have hencrypt : ∀ m ∈ ms, (s.encrypt m noise).Follows (maskedNoise s.dimension noise)
      fun c e => c.phase s = .ok (m + e) :=
    fun m _ => s.encrypt_phase m noise
  intro g
  rcases Draw.Follows.mapM hencrypt g with ⟨cs, hrun, hphases⟩
  refine ⟨cs, hrun, ?_⟩
  change LweSample.HavePhases s cs (List.zipWith (· + ·) ms _)
  rw [← List.map_uncurry_zip_eq_zipWith]
  exact List.forall₂_map_right_iff.2 hphases

end LweKey

end TorusFHE
