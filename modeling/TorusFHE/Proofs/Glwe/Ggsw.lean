import TorusFHE.Glwe.Ggsw
import TorusFHE.Proofs.Glwe.Phase
import TorusFHE.Proofs.Torus.Gadget

/-!
# Rows of gadget encryptions

Every row of a gadget encryption is an encryption of zero with a constant added somewhere.  Where it
is added to a mask polynomial, the phase depends on the product of masks and key; where it is added
to the body, the phase is moved by just that constant.

* `Ggsw.getElem?_targets` and `Ggsw.exists_isRow`: which block and weight a row belongs to;
* `GlweSample.exists_addConstant` and `Glwe.phase_of_addConstant`: what adding a constant does;
* `Ggsw.encrypt_follows`: encryption succeeds, row by row.
-/

namespace TorusFHE

/-! ## Adding a constant -/

variable {k n : Nat} {z : GlweSample}

theorem GlweSample.addConstant_of_getElem? {r : Nat} {q : Polynomial} (hr : z.mask[r]? = some q)
    (hq : 0 < q.size) (m : Torus) :
    z.addConstant r m =
      .ok { z with mask := z.mask.set r ⟨q.coeffs.modify 0 (· + m)⟩ } := by
  simp [addConstant, hr, Polynomial.addAt_zero_eq_ok hq]

/-- Behind the mask polynomials comes the body. -/
theorem GlweSample.addConstant_of_le {r : Nat} (hr : z.mask.length ≤ r) (hbody : 0 < z.body.size)
    (m : Torus) :
    z.addConstant r m = .ok { z with body := ⟨z.body.coeffs.modify 0 (· + m)⟩ } := by
  have hnone : z.mask[r]? = none := List.getElem?_eq_none hr
  simp [addConstant, hnone, Polynomial.addAt_zero_eq_ok hbody]

theorem GlweSample.Shaped.modify_body (hz : z.Shaped k n) (m : Torus) :
    GlweSample.Shaped k n { z with body := ⟨z.body.coeffs.modify 0 (· + m)⟩ } :=
  ⟨hz.rank, hz.mask, (List.length_modify _ _ _).trans hz.body⟩

/-- A constant can be added to each mask polynomial and to the body. -/
theorem GlweSample.exists_addConstant (hn : 0 < n) (hz : z.Shaped k n) (r : Nat) (m : Torus) :
    ∃ row, z.addConstant r m = .ok row ∧ row.Shaped k n := by
  cases hr : z.mask[r]? with
  | some q =>
    -- One mask polynomial changes, and keeps its size.
    have hq : q.size = n := hz.mask q (List.mem_of_getElem? hr)
    refine ⟨_, addConstant_of_getElem? hr (hq ▸ hn) m, ?_, ?_, hz.body⟩
    · simp [hz.rank]
    · intro q' hmem
      rcases List.mem_or_eq_of_mem_set hmem with hmem | rfl
      · exact hz.mask q' hmem
      · exact (List.length_modify _ _ _).trans hq
  | none =>
    have hlen : z.mask.length ≤ r := List.getElem?_eq_none_iff.1 hr
    exact ⟨_, addConstant_of_le hlen (hz.body ▸ hn) m, hz.modify_body m⟩

/-- A constant on the body moves the constant coefficient of the phase. -/
theorem Glwe.phase_of_addConstant {s : MaskProduct} (hs : s.Total)
    (hz : z.Shaped s.rank s.degree) {p : Polynomial} (hp : phase s z = .ok p) {m : Torus}
    {row : GlweSample} (hrow : z.addConstant s.rank m = .ok row) :
    phase s row = .ok ⟨p.coeffs.modify 0 (· + m)⟩ := by
  have hpos : 0 < s.degree := Nat.pos_of_isPowerOfTwo hs.isPowerOfTwo
  have hadd := GlweSample.addConstant_of_le hz.rank.le (hz.body ▸ hpos) m
  cases hadd.symm.trans hrow
  -- The mask is the same, so that its product with the key is taken away as before.
  rcases (phase_eq_ok_iff hs hz).1 hp with ⟨q, hq, rfl⟩
  refine (phase_eq_ok_iff hs (hz.modify_body m)).2 ⟨q, hq, ?_⟩
  rw [TorusVec.zipWith_sub_modify_zero]

/-! ## Rows -/

namespace Ggsw

variable (g : Gadget)

@[simp] theorem length_targets (rank : Nat) (m : Torus) :
    (targets g rank m).length = (rank + 1) * g.levels := by
  simp [targets, List.length_flatMap]

/-- Row `r * levels + j` belongs to block `r` and to the weight behind level `j`. -/
theorem getElem?_targets {rank r j : Nat} (hr : r ≤ rank) (hj : j < g.levels) (m : Torus) :
    (targets g rank m)[r * g.levels + j]? = some (r, m * 2 ^ (32 - (j + 1) * g.logBase)) := by
  have hblocks : ∀ r ∈ List.range (rank + 1),
      ((g.powers m).map fun c => (r, c)).length = g.levels :=
    fun _ _ => by simp
  rw [targets, getElem?_flatMap_of_length hblocks r hj, List.getElem?_range (by omega)]
  simp [g.getElem?_powers m hj]

/-- What the row of a target is made of: an encryption of zero with this noise. -/
structure IsRow (s : Glwe.MaskProduct) (target : Nat × Torus) (row : GlweSample) (e : TorusVec) :
    Prop where
  shaped : row.Shaped s.rank s.degree
  zero : ∃ z : GlweSample, z.Shaped s.rank s.degree ∧ Glwe.phase s z = .ok ⟨e⟩ ∧
    z.addConstant target.1 target.2 = .ok row

variable {s : Glwe.MaskProduct}

/-- Where there is a row for each target, block `r` has one for level `j`. -/
theorem exists_isRow {rows : List GlweSample} {es : List TorusVec} {m : Torus}
    (h : List.Forall₂ (fun row p => IsRow s p.1 row p.2) rows ((targets g s.rank m).zip es))
    (hes : es.length = (s.rank + 1) * g.levels) {r j : Nat} (hr : r ≤ s.rank) (hj : 1 ≤ j)
    (hjle : j ≤ g.levels) :
    let position := r * g.levels + (j - 1)
    ∃ row, rows[position]? = some row ∧ es.getD position [] ∈ es ∧
      IsRow s (r, m * 2 ^ (32 - j * g.logBase)) row (es.getD position []) := by
  intro position
  have htarget := getElem?_targets g hr (show j - 1 < g.levels by omega) m
  rw [Nat.sub_add_cancel hj] at htarget
  have hposition : position < es.length := by
    rw [hes]
    calc
      position < r * g.levels + g.levels := Nat.add_lt_add_left (by omega) _
      _ = (r + 1) * g.levels := (Nat.succ_mul _ _).symm
      _ ≤ (s.rank + 1) * g.levels := Nat.mul_le_mul_right _ (by omega)
  have hnoise := getElem?_eq_some_getD hposition []
  have hentry : ((targets g s.rank m).zip es)[position]? =
      some ((r, m * 2 ^ (32 - j * g.logBase)), es.getD position []) :=
    List.getElem?_zip_eq_some.2 ⟨htarget, hnoise⟩
  rcases exists_getElem?_of_forall₂ h hentry with ⟨row, hrow, hisRow⟩
  exact ⟨row, hrow, List.mem_of_getElem? hnoise, hisRow⟩

/-- A row of the last block stands for the multiple of its weight. -/
theorem IsRow.phase (hs : s.Total) {m : Torus} {row : GlweSample} {e : TorusVec}
    (h : IsRow s (s.rank, m) row e) : Glwe.phase s row = .ok ⟨e.modify 0 (· + m)⟩ := by
  rcases h.zero with ⟨z, hz, hphase, hadd⟩
  exact Glwe.phase_of_addConstant hs hz hphase hadd

variable {γ : Type} [Generator γ]

/-- The noises of the rows, in order. -/
def noises (rank degree levels : Nat) (noise : Sampler γ Torus) : Sampler γ (List TorusVec) :=
  (Glwe.maskedNoise rank degree noise).repeated ((rank + 1) * levels)

/-- The row of one target. -/
def encryptRow (s : Glwe.MaskProduct) (noise : Sampler γ Torus) (target : Nat × Torus) :
    Draw γ GlweSample := do
  let zero ← Draw.lift (Polynomial.zero s.degree)
  let row ← Glwe.encrypt s zero noise
  Draw.lift (row.addConstant target.1 target.2)

theorem encryptRow_follows (hs : s.Total) (noise : Sampler γ Torus) (target : Nat × Torus) :
    (encryptRow s noise target).Follows (Glwe.maskedNoise s.rank s.degree noise)
      (IsRow s target) := by
  intro start
  have hpos : 0 < s.degree := Nat.pos_of_isPowerOfTwo hs.isPowerOfTwo
  have hzero := Polynomial.zero_eq_ok hs.isPowerOfTwo
  rcases Glwe.encrypt_follows hs (m := ⟨TorusVec.zeros s.degree⟩) List.length_replicate noise start
    with ⟨z, hrun, hz, hphase⟩
  -- The message is zero, so that the phase is the noise alone.
  rw [TorusVec.zipWith_zeros_add (Glwe.length_maskedNoise _ _ _ _)] at hphase
  rcases GlweSample.exists_addConstant hpos hz target.1 target.2 with ⟨row, hrow, hshaped⟩
  exact ⟨row, by simp [encryptRow, hzero, hrun, hrow], hshaped, z, hz, hphase, hrow⟩

/-- Encryption succeeds, row by row. -/
theorem encrypt_follows (hs : s.Total) (m : Torus) (noise : Sampler γ Torus) :
    (encrypt g s m noise).Follows (noises s.rank s.degree g.levels noise) fun c es =>
      List.Forall₂ (fun row p => IsRow s p.1 row p.2) c.rows ((targets g s.rank m).zip es) := by
  have hrows := Draw.Follows.mapM (l := targets g s.rank m)
    fun target _ => encryptRow_follows hs noise target
  rw [length_targets] at hrows
  exact hrows.map GgswSample.mk fun _ _ h => h

end Ggsw

end TorusFHE
