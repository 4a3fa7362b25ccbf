import Mathlib.Algebra.Order.BigOperators.Group.List
import TorusFHE.Lwe.KeySwitch
import TorusFHE.Proofs.Lwe.Phase
import TorusFHE.Proofs.Torus.Gadget

/-!
# The phase of a switched sample

Under the target key, a switched sample stands for what the sample stands for under the source key,
up to two errors: every mask entry is rounded to what the gadget can write, and every sample of the
key contributes its noise, weighed by a digit.

* `KeySwitchingKey.generate_phases`: what the samples of a key stand for;
* `KeySwitchingKey.inner_decompose_plaintexts`: digits and plaintexts make up the rounded product;
* `KeySwitchingKey.abs_switch_error_le`: how far the phase moves for a binary source key.
-/

namespace TorusFHE

/-! ## Sizes of products -/

namespace TorusVec

/-- The product of small numbers and a vector is at most the size of the vector that many times. -/
theorem abs_inner_map_ofInt_le {bound : Int} {ds : List Int} (hds : ∀ d ∈ ds, |d| ≤ bound)
    (hbound : 0 ≤ bound) (es : TorusVec) :
    |(inner (ds.map Torus.ofInt) es).centered| ≤ bound * (es.map fun e => |e.centered|).sum := by
  induction es generalizing ds with
  | nil => simp
  | cons e es ih =>
    -- Noises beyond the last digit only make the bound larger.
    have hrest : 0 ≤ (es.map fun e => |e.centered|).sum := by
      refine List.sum_nonneg ?_
      simp
    cases ds with
    | nil =>
      rw [List.map_nil, inner_nil_left, Torus.centered_zero, abs_zero, List.map_cons, List.sum_cons]
      exact mul_nonneg hbound (add_nonneg (abs_nonneg _) hrest)
    | cons d ds =>
      have hhead : |((d : Torus) * e).centered| ≤ bound * |e.centered| :=
        (Torus.abs_centered_intCast_mul_le d e).trans
          (mul_le_mul_of_nonneg_right (hds d (by simp)) (abs_nonneg _))
      have hds' : ∀ d' ∈ ds, |d'| ≤ bound := fun d' hd' => hds d' (by simp [hd'])
      have htail := ih hds'
      rw [List.map_cons, inner_cons_cons, ← Torus.intCast_def, List.map_cons, List.sum_cons,
        mul_add]
      exact (Torus.abs_centered_add_le _ _).trans (add_le_add hhead htail)

/-- The product of a vector of small entries and a binary vector is at most the largest entry for
each one of the binary vector. -/
theorem abs_inner_binary_le {bound : Int} {v s : TorusVec} (hv : ∀ x ∈ v, |x.centered| ≤ bound)
    (hbound : 0 ≤ bound) (hs : ∀ x ∈ s, x = 0 ∨ x = 1) :
    |(inner v s).centered| ≤ (s.count 1 : Int) * bound := by
  induction s generalizing v with
  | nil => simp
  | cons y s ih =>
    cases v with
    | nil =>
      have hpos : 0 ≤ ((y :: s).count 1 : Int) * bound :=
        mul_nonneg (Int.natCast_nonneg _) hbound
      simpa using hpos
    | cons x v =>
      have htail := ih (v := v) (fun z hz => hv z (by simp [hz])) (fun z hz => hs z (by simp [hz]))
      -- Only a one of the binary vector lets its entry through.
      rcases hs y (by simp) with rfl | rfl
      · rw [inner_cons_cons, mul_zero, zero_add, List.count_cons_of_ne zero_ne_one]
        exact htail
      · have hhead : |x.centered| ≤ bound := hv x (by simp)
        rw [inner_cons_cons, mul_one, List.count_cons_self]
        push_cast
        have hadd := Torus.abs_centered_add_le x (inner v s)
        linarith

end TorusVec

/-! ## Keys and switched samples -/

namespace KeySwitchingKey

variable (g : Gadget)

@[simp] theorem length_plaintexts (source : TorusVec) :
    (plaintexts g source).length = source.length * g.levels := by
  simp [plaintexts, List.length_flatMap]

@[simp] theorem length_flatMap_decompose (mask : TorusVec) :
    (mask.flatMap g.decompose).length = mask.length * g.levels := by
  simp [List.length_flatMap]

/-- The digits of a mask, weighed by what the key encrypts, make up the negated product of the
rounded mask and the source key. -/
theorem inner_decompose_plaintexts {mask source : TorusVec} (h : mask.length = source.length) :
    TorusVec.inner (mask.flatMap g.decompose) (plaintexts g source) =
      -TorusVec.inner (mask.map g.round) source := by
  induction mask generalizing source with
  | nil => simp
  | cons a mask ih =>
    cases source with
    | nil => simp at h
    | cons s source =>
      -- The digits of `a` meet the multiples of `-s` and make up `-round a * s`.
      have hpowers : g.powers (-s) = g.bases.scale (-s) := by
        simp [Gadget.powers, TorusVec.scale, mul_comm]
      have hblock : TorusVec.inner (g.decompose a) (g.powers (-s)) = -(g.round a * s) := by
        rw [hpowers, TorusVec.inner_comm, TorusVec.inner_scale, TorusVec.inner_comm,
          g.inner_decompose_bases]
        ring
      have hlen : mask.length = source.length := by simpa using h
      have htail := ih hlen
      rw [plaintexts] at htail ⊢
      rw [List.flatMap_cons, List.flatMap_cons, TorusVec.inner_append (by simp), hblock, htail,
        List.map_cons, TorusVec.inner_cons_cons]
      ring

/-- With noises on top of the plaintexts, each noise is weighed by a digit. -/
theorem inner_decompose_plaintexts_add {mask source es : TorusVec}
    (h : mask.length = source.length) (hes : es.length = source.length * g.levels) :
    TorusVec.inner (mask.flatMap g.decompose) (List.zipWith (· + ·) (plaintexts g source) es) =
      -TorusVec.inner (mask.map g.round) source
        + TorusVec.inner (mask.flatMap g.decompose) es := by
  have hlen : (plaintexts g source).length = es.length := by rw [length_plaintexts, hes]
  rw [TorusVec.inner_zipWith_add_right hlen, inner_decompose_plaintexts g h]

variable {γ : Type} [Generator γ]

/-- The noises of the samples of a key with `count` samples, in order. -/
def noises (count : Nat) (target : LweKey) (noise : Sampler γ Torus) (start : γ) : TorusVec :=
  ((LweKey.maskedNoise target.dimension noise).repeated count start).1

@[simp] theorem length_noises (count : Nat) (target : LweKey) (noise : Sampler γ Torus)
    (start : γ) : (noises count target noise start).length = count :=
  Sampler.length_repeated _ _ _

/-- Generation makes a sample of each plaintext, with the noise that was drawn for it. -/
theorem generate_follows (source : TorusVec) (target : LweKey) (noise : Sampler γ Torus) :
    (generate g source target noise).Follows
      ((LweKey.maskedNoise target.dimension noise).repeated (source.length * g.levels))
      fun k es => LweSample.HavePhases target k.samples
        (List.zipWith (· + ·) (plaintexts g source) es) := by
  have hsamples := target.mapM_encrypt_follows (plaintexts g source) noise
  rw [length_plaintexts] at hsamples
  exact Draw.Follows.map mk hsamples fun _ _ h => h

/-- A generated key holds samples of the plaintexts, each with its noise. -/
theorem generate_phases (source : TorusVec) (target : LweKey) (noise : Sampler γ Torus)
    (start : γ) :
    ∃ k final, generate g source target noise start = .ok (k, final) ∧
      LweSample.HavePhases target k.samples
        (List.zipWith (· + ·) (plaintexts g source)
          (noises (source.length * g.levels) target noise start)) := by
  rcases generate_follows g source target noise start with ⟨k, hrun, hphases⟩
  exact ⟨k, _, hrun, hphases⟩

/-- Switching with samples of known phases adds these phases, weighed by the digits of the mask. -/
theorem switch_of_havePhases {target : LweKey} {k : KeySwitchingKey} {xs : TorusVec}
    (hk : LweSample.HavePhases target k.samples xs) {c : LweSample} (hmask : c.mask ≠ [])
    (hlen : xs.length = c.mask.length * g.levels) :
    ∃ c', k.switch g c = .ok c' ∧
      c'.phase target = .ok (c.body + TorusVec.inner (c.mask.flatMap g.decompose) xs) := by
  -- All masks of the key have the target dimension, and there is one sample for each digit.
  have hsamples : k.samples.length = (c.mask.flatMap g.decompose).length := by
    rw [hk.length_eq, hlen, length_flatMap_decompose]
  have hmasks : ∀ v ∈ k.samples.map LweSample.mask, v.length = target.dimension := by
    intro v hv
    rcases List.mem_map.1 hv with ⟨d, hd, rfl⟩
    exact LweSample.dimension_of_mem_of_havePhases hk hd
  have hne : k.samples.map LweSample.mask ≠ [] := by
    have hpos : 0 < c.mask.length * g.levels :=
      Nat.mul_pos (List.length_pos_iff.2 hmask) g.levels_pos
    rw [length_flatMap_decompose] at hsamples
    exact List.ne_nil_of_length_pos (by simpa [hsamples] using hpos)
  have hcount : (k.samples.map LweSample.mask).length = (c.mask.flatMap g.decompose).length := by
    simpa using hsamples
  rcases TorusVec.weightedSum_inner hne hmasks hcount with ⟨mask, hsum, hlength, hinner⟩
  have hbody : TorusVec.dot (k.samples.map LweSample.body) (c.mask.flatMap g.decompose) =
      .ok (TorusVec.inner (k.samples.map LweSample.body) (c.mask.flatMap g.decompose)) :=
    TorusVec.dot_eq_ok_iff.2 ⟨by simpa using hsamples, rfl⟩
  let body := TorusVec.inner (k.samples.map LweSample.body) (c.mask.flatMap g.decompose)
  refine ⟨⟨mask, body + c.body⟩, by simp [switch, hsum, hbody, body], ?_⟩
  rw [LweSample.phase_eq_ok_iff]
  refine ⟨hlength, ?_⟩
  rw [hinner, LweSample.inner_of_havePhases hk, show body = _ from TorusVec.inner_comm _ _]
  ring

/-- What switching adds to the phase is at most half the last weight for each one of a binary source
key, and half the base times the size of each noise. -/
theorem abs_switch_error_le {mask source : TorusVec} (hbinary : ∀ x ∈ source, x = 0 ∨ x = 1)
    (es : TorusVec) :
    |(TorusVec.inner (mask.map fun a => a - g.round a) source
        + TorusVec.inner (mask.flatMap g.decompose) es).centered| ≤
      (source.count 1 : Int) * (g.lastWeight / 2 : Nat)
        + g.half * (es.map fun e => |e.centered|).sum := by
  have hrounding : ∀ x ∈ mask.map fun a => a - g.round a,
      |x.centered| ≤ ((g.lastWeight / 2 : Nat) : Int) := by
    intro x hx
    rcases List.mem_map.1 hx with ⟨a, -, rfl⟩
    exact g.abs_centered_sub_round_le a
  have hdigits : ∀ d ∈ mask.flatMap g.digits, |d| ≤ (g.half : Int) := by
    intro d hd
    rcases List.mem_flatMap.1 hd with ⟨a, -, hda⟩
    exact g.abs_le_half_of_mem_digits hda
  have hmap : mask.flatMap g.decompose = (mask.flatMap g.digits).map Torus.ofInt := by
    rw [List.map_flatMap]
    rfl
  rw [hmap]
  exact (Torus.abs_centered_add_le _ _).trans
    (add_le_add (TorusVec.abs_inner_binary_le hrounding (Int.natCast_nonneg _) hbinary)
      (TorusVec.abs_inner_map_ofInt_le hdigits (Int.natCast_nonneg _) es))

/-- Key switching is exact up to gadget rounding.  A key always comes about, and under it every
sample of the source dimension is switched to one whose phase differs by the rounding of the mask
and by the noises, each weighed by a digit.  For a binary source key the difference is small; the
bound holds also where it exceeds half a turn, and says nothing there. -/
theorem exists_switch_phase {source : TorusVec} (hsource : source ≠ []) (target : LweKey)
    (noise : Sampler γ Torus) (start : γ) :
    ∃ k final, generate g source target noise start = .ok (k, final) ∧
      ∀ c : LweSample, c.dimension = source.length →
        ∃ c' old new,
          k.switch g c = .ok c' ∧ c'.dimension = target.dimension ∧
          c.phase ⟨source⟩ = .ok old ∧ c'.phase target = .ok new ∧
          new = c.body
            - ∑ i ∈ Finset.range source.length, g.round (c.mask.getD i 0) * source.getD i 0
            + ∑ i ∈ Finset.range source.length, ∑ j ∈ Finset.range g.levels,
                (g.decompose (c.mask.getD i 0)).getD j 0 *
                  (noises (source.length * g.levels) target noise start).getD
                    (i * g.levels + j) 0 ∧
          ((∀ x ∈ source, x = 0 ∨ x = 1) →
            |(new - old).centered| ≤
              (source.count 1 : Int) *
                  (if g.roundingBits = 0 then 0 else 2 ^ (g.roundingBits - 1))
                + 2 ^ (g.logBase - 1) *
                  ((noises (source.length * g.levels) target noise start).map
                    fun e => |e.centered|).sum) := by
  rcases generate_phases g source target noise start with ⟨k, final, hrun, hphases⟩
  refine ⟨k, final, hrun, ?_⟩
  intro c hdim
  let es := noises (source.length * g.levels) target noise start
  have hmask : c.mask.length = source.length := hdim
  have hne : c.mask ≠ [] := by
    rintro h
    exact hsource (List.length_eq_zero_iff.1 (by rw [← hmask, h, List.length_nil]))
  rcases switch_of_havePhases g hphases hne (by simp [hmask]) with ⟨c', hswitch, hphase⟩
  have hold : c.phase ⟨source⟩ = .ok (c.body - TorusVec.inner c.mask source) :=
    LweSample.phase_eq_ok_iff.2 ⟨hdim, rfl⟩
  have hes : es.length = source.length * g.levels := length_noises _ _ _ _
  have hsplit := inner_decompose_plaintexts_add g hmask hes
  refine ⟨c', _, _, hswitch, LweSample.dimension_of_phase hphase, hold, hphase, ?_, ?_⟩
  · rw [hsplit, TorusVec.inner_map_eq_sum_range g.round hmask,
      TorusVec.inner_flatMap_eq_sum_range g.length_decompose (by simp [es, hmask]), hmask]
    ring
  · intro hbinary
    have hhalf : (g.half : Int) = 2 ^ (g.logBase - 1) := by
      rw [g.half_eq]
      push_cast
      rfl
    -- The old phase cancels the body and the exact product of the mask.
    have hdiff : c.body + TorusVec.inner (c.mask.flatMap g.decompose)
        (List.zipWith (· + ·) (plaintexts g source) es)
          - (c.body - TorusVec.inner c.mask source) =
        TorusVec.inner (c.mask.map fun a => a - g.round a) source
          + TorusVec.inner (c.mask.flatMap g.decompose) es := by
      rw [hsplit, TorusVec.inner_map_sub (fun a => a) g.round, List.map_id']
      ring
    rw [hdiff, ← g.lastWeight_div_two, ← hhalf]
    exact abs_switch_error_le g hbinary es

/-- Two source entries at two levels, with noises of zero or one unit. -/
theorem exists_switch_phase_two_entries :
    let g : Gadget := ⟨4, 2, by decide, by decide, by decide⟩
    let start : CyclicWords := ⟨#[0x80000003, 0x90000005, 0x40000001, 0xc0000002, 9], 0⟩
    ([1, 0] : TorusVec) ≠ [] ∧
      ∃ k final c', generate g [1, 0] ⟨[1]⟩ Sampler.binary start = .ok (k, final) ∧
        k.switch g ⟨[⟨0x12c80001⟩, ⟨0x90000000⟩], 5⟩ = .ok c' ∧
        c'.phase ⟨[1]⟩ = .ok ⟨0xed000002⟩ ∧
        |(⟨0xed000002⟩ - ⟨0xed380004⟩ : Torus).centered| ≤ 1 * 2 ^ 23 + 2 ^ 3 * 3 := by
  intro g start
  have hsource : ([1, 0] : TorusVec) ≠ [] := by decide
  rcases exists_switch_phase g hsource ⟨[1]⟩ Sampler.binary start with ⟨k, final, hrun, h⟩
  rcases h ⟨[⟨0x12c80001⟩, ⟨0x90000000⟩], 5⟩ rfl with
      ⟨c', old, new, hswitch, -, hold, hphase, hnew, hbound⟩
  have hnew' : new = ⟨0xed000002⟩ := by
    rw [hnew]
    decide +kernel
  have hold' : old = ⟨0xed380004⟩ := by
    rw [(LweSample.phase_eq_ok_iff.1 hold).2]
    decide
  subst hnew' hold'
  exact ⟨hsource, k, final, c', hrun, hswitch, hphase,
    (hbound (by decide)).trans (by decide +kernel)⟩

end KeySwitchingKey

end TorusFHE
