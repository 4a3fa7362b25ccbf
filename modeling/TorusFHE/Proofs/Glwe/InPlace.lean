import TorusFHE.Glwe.InPlace
import TorusFHE.Proofs.Glwe.Ggsw

/-!
# Gadget encryption in place and row by row

Changing a row takes no words, so that it makes no difference whether a row is changed before the
next one is drawn or after all have been drawn.  No weight is refused, and behind the split and the
cut into blocks each row meets the target that it has in the order of the rows.

* `Draw.mapM_lift`: draws and changes in turn, or all draws before all changes;
* `Ggsw.patch_eq_mapM`: the blocks and their rows are those of `Ggsw.targets`;
* `Ggsw.encryptInPlace_eq`: both ways give the same rows from the same draws.
-/

namespace TorusFHE

/-- What changes a drawn value without a draw can wait for the other draws. -/
theorem Draw.mapM_lift {γ ι α β : Type} {x : Draw γ α} {P : α → Prop} (hx : x.Makes P)
    {f : ι → α → Except Fault β} (hf : ∀ i a, P a → ∃ b, f i a = .ok b) (l : List ι) (start : γ) :
    ∃ as final, (List.replicate l.length ()).mapM (fun _ => x) start = .ok (as, final) ∧
      as.length = l.length ∧ (∀ a ∈ as, P a) ∧
      (l.mapM fun i => do Draw.lift (f i (← x))) start =
        Draw.lift ((l.zip as).mapM fun p => f p.1 p.2) final := by
  induction l generalizing start with
  | nil => exact ⟨[], start, rfl, rfl, by simp, rfl⟩
  | cons i l ih =>
    rcases hx start with ⟨a, next, hrun, ha⟩
    rcases ih next with ⟨as, final, hruns, hlength, has, hrest⟩
    rcases hf i a ha with ⟨b, hb⟩
    refine ⟨a :: as, final, ?_, by simp [hlength], List.forall_mem_cons.2 ⟨ha, has⟩, ?_⟩
    · simp [List.replicate_succ, List.mapM_cons, hrun, hruns]
    · have hstep : ((i :: l).mapM fun i => do Draw.lift (f i (← x))) start =
          ((l.mapM fun i => do Draw.lift (f i (← x))) next >>= fun r => .ok (b :: r.1, r.2)) := by
        simp [List.mapM_cons, hrun, hb]
      rw [hstep, hrest, List.zip_cons_cons, List.mapM_cons, hb, ok_bind]
      cases (l.zip as).mapM fun p => f p.1 p.2 with
      | error fault => rfl
      | ok bs => rfl

/-! ## Blocks of rows -/

theorem blocks_append {α : Type} {size : Nat} (hsize : 0 < size) {block rest : List α}
    (hblock : block.length = size) : blocks size (block ++ rest) = block :: blocks size rest := by
  have hpos : 0 < size ∧ 0 < (block ++ rest).length := ⟨hsize, by simp [hblock, hsize]⟩
  rw [blocks, dif_pos hpos, List.take_left' hblock, List.drop_left' hblock]

theorem blocks_nil {α : Type} (size : Nat) : blocks size ([] : List α) = [] := by
  simp [blocks]

namespace GlweSample

variable {k n : Nat} {z : GlweSample}

/-- A sample has a polynomial for each block but the last. -/
theorem Shaped.addToMask_eq (hz : z.Shaped k n) {r : Nat} (hr : r < k) (c : Torus) :
    z.addToMask r c = z.addConstant r c := by
  obtain ⟨q, hq⟩ : ∃ q, z.mask[r]? = some q := ⟨_, List.getElem?_eq_getElem (hz.rank ▸ hr)⟩
  rw [addToMask, addConstant, hq]

theorem Shaped.addToBody_eq (hz : z.Shaped k n) (c : Torus) :
    z.addToBody c = z.addConstant k c := by
  have hnone : z.mask[k]? = none := List.getElem?_eq_none hz.rank.le
  rw [addToBody, addConstant, hnone]

end GlweSample

namespace Ggsw

/-- The rows of a block meet the targets of the block. -/
theorem patchRows_eq_mapM {change : Torus → GlweSample → Except Fault GlweSample} {r : Nat}
    {multiples : TorusVec} {rows : List GlweSample} (h : multiples.length = rows.length)
    (hchange : ∀ row ∈ rows, ∀ c, change c row = row.addConstant r c) :
    patchRows change multiples rows =
      ((multiples.map fun c => (r, c)).zip rows).mapM fun p => p.2.addConstant p.1.1 p.1.2 := by
  induction multiples generalizing rows with
  | nil =>
    obtain rfl : rows = [] := List.length_eq_zero_iff.1 h.symm
    rfl
  | cons c multiples ih =>
    cases rows with
    | nil => simp at h
    | cons row rows =>
      rcases List.forall_mem_cons.1 hchange with ⟨hrow, hrows⟩
      rw [patchRows, hrow c, ih (Nat.succ.inj h) hrows, List.map_cons, List.zip_cons_cons,
        List.mapM_cons]

variable (g : Gadget) (m : Torus) {k n : Nat}

/-- The targets of `count` blocks, the first of which is numbered `first`. -/
def blockTargets (first count : Nat) : List (Nat × Torus) :=
  (List.range' first count).flatMap fun r => (g.powers m).map fun c => (r, c)

theorem length_blockTargets (first count : Nat) :
    (blockTargets g m first count).length = count * g.levels := by
  simp [blockTargets, List.length_flatMap]

theorem targets_eq : targets g k m =
    blockTargets g m 0 k ++ (g.powers m).map fun c => (k, c) := by
  rw [targets, blockTargets, List.range_succ, List.flatMap_append, List.range_eq_range']
  simp

/-- The blocks of the mask, one after the other. -/
theorem mapM_blocks {count first : Nat} {rows : List GlweSample}
    (hlength : rows.length = count * g.levels) (hrows : ∀ row ∈ rows, row.Shaped k n)
    (hle : first + count ≤ k) :
    List.flatten <$> ((blocks g.levels rows).zipIdx first).mapM (fun block =>
        patchRows (GlweSample.addToMask block.2) (g.powers m) block.1) =
      ((blockTargets g m first count).zip rows).mapM fun p => p.2.addConstant p.1.1 p.1.2 := by
  induction count generalizing first rows with
  | zero =>
    obtain rfl : rows = [] := List.length_eq_zero_iff.1 (by simpa using hlength)
    rw [blocks_nil]
    rfl
  | succ count ih =>
    rcases exists_block hlength with ⟨block, rest, rfl, hblock, hrest⟩
    rcases List.forall_mem_append.1 hrows with ⟨hshaped, hshapedRest⟩
    have hpowers : (g.powers m).length = block.length := by rw [hblock, g.length_powers]
    have hchange : ∀ row ∈ block, ∀ c, row.addToMask first c = row.addConstant first c :=
      fun row hrow => (hshaped row hrow).addToMask_eq (by omega)
    have hpatch := patchRows_eq_mapM hpowers hchange
    have htargets : blockTargets g m first (count + 1) =
        ((g.powers m).map fun c => (first, c)) ++ blockTargets g m (first + 1) count := by
      rw [blockTargets, List.range'_succ, List.flatMap_cons]
      rfl
    rw [blocks_append g.levels_pos hblock, List.zipIdx_cons, List.mapM_cons, htargets,
      List.zip_append (by simpa using hpowers), List.mapM_append, ← hpatch,
      ← ih hrest hshapedRest (by omega)]
    -- The rows of the first block come first, and the faults of the others behind its own.
    cases patchRows (GlweSample.addToMask first) (g.powers m) block with
    | error fault => rfl
    | ok front =>
      cases (((blocks g.levels rest).zipIdx (first + 1)).mapM fun block =>
          patchRows (GlweSample.addToMask block.2) (g.powers m) block.1) with
      | error fault => rfl
      | ok others => rfl

/-- Changing the rows of all blocks is adding a constant to each row in order. -/
theorem patch_eq_mapM {rows : List GlweSample} (hlength : rows.length = (k + 1) * g.levels)
    (hrows : ∀ row ∈ rows, row.Shaped k n) :
    patch g k m rows =
      ((targets g k m).zip rows).mapM fun p => p.2.addConstant p.1.1 p.1.2 := by
  have hmasks : (rows.take (k * g.levels)).length = k * g.levels := by
    rw [List.length_take, hlength]
    exact Nat.min_eq_left (Nat.mul_le_mul_right _ (Nat.le_succ k))
  have hbodies : (g.powers m).length = (rows.drop (k * g.levels)).length := by
    rw [g.length_powers, List.length_drop, hlength, Nat.succ_mul, Nat.add_sub_cancel_left]
  have hsplit : rows.take (k * g.levels) ++ rows.drop (k * g.levels) = rows :=
    List.take_append_drop _ _
  have hmask := mapM_blocks g m hmasks (fun row h => hrows row (List.mem_of_mem_take h))
    (Nat.le_of_eq (Nat.zero_add k))
  have hbody := patchRows_eq_mapM hbodies
    fun row h => (hrows row (List.mem_of_mem_drop h)).addToBody_eq
  have hzip : (targets g k m).zip rows =
      (blockTargets g m 0 k).zip (rows.take (k * g.levels)) ++
        ((g.powers m).map fun c => (k, c)).zip (rows.drop (k * g.levels)) := by
    rw [targets_eq, ← List.zip_append ((length_blockTargets g m 0 k).trans hmasks.symm), hsplit]
  have hpatch : patch g k m rows = (do
      let masks ← (blocks g.levels (rows.take (k * g.levels))).zipIdx.mapM fun block =>
        patchRows (GlweSample.addToMask block.2) (g.powers m) block.1
      let bodies ← patchRows GlweSample.addToBody (g.powers m) (rows.drop (k * g.levels))
      return masks.flatten ++ bodies) := by
    rw [patch, g.checkedBases_eq_ok]
    rfl
  rw [hpatch, hzip, List.mapM_append, ← hmask, ← hbody]
  cases ((blocks g.levels (rows.take (k * g.levels))).zipIdx.mapM fun block =>
      patchRows (GlweSample.addToMask block.2) (g.powers m) block.1) with
  | error fault => rfl
  | ok front => rfl

/-! ## Encryption -/

variable {γ : Type} [Generator γ] {s : Glwe.MaskProduct}

theorem encryptZero_makes (hs : s.Total) (noise : Sampler γ Torus) :
    (encryptZero s noise).Makes fun row => row.Shaped s.rank s.degree := by
  intro start
  have hzero := Polynomial.zero_eq_ok hs.isPowerOfTwo
  rcases Glwe.encrypt_follows hs (m := ⟨TorusVec.zeros s.degree⟩) List.length_replicate noise start
    with ⟨row, hrun, hrow, -⟩
  refine ⟨row, (Glwe.maskedNoise s.rank s.degree noise start).2, ?_, hrow⟩
  simp [encryptZero, hzero, hrun]

theorem encryptRow_eq (noise : Sampler γ Torus) (target : Nat × Torus) :
    encryptRow s noise target = (do
      let row ← encryptZero s noise
      Draw.lift (row.addConstant target.1 target.2)) := by
  simp only [encryptRow, encryptZero, bind_assoc]

/-- All rows can be drawn before the first of them is changed. -/
theorem encryptInPlace_eq (hs : s.Total) (noise : Sampler γ Torus) :
    encryptInPlace s noise g m = encrypt g s m noise := by
  have hpos : 0 < s.degree := Nat.pos_of_isPowerOfTwo hs.isPowerOfTwo
  let change (target : Nat × Torus) (row : GlweSample) := row.addConstant target.1 target.2
  have hchange : ∀ target (row : GlweSample), row.Shaped s.rank s.degree →
      ∃ changed, change target row = .ok changed := by
    intro target row hrow
    rcases GlweSample.exists_addConstant hpos hrow target.1 target.2 with ⟨changed, hok, -⟩
    exact ⟨changed, hok⟩
  funext start
  rcases Draw.mapM_lift (encryptZero_makes hs noise) hchange (targets g s.rank m) start with
    ⟨rows, final, hrun, hlength, hrows, hturns⟩
  rw [length_targets] at hrun hlength
  have hencrypt : encrypt g s m noise start =
      ((targets g s.rank m).mapM (encryptRow s noise) start >>= fun r => .ok (⟨r.1⟩, r.2)) := rfl
  have hinPlace : encryptInPlace s noise g m start =
      (Draw.lift (patch g s.rank m rows) final >>= fun r => .ok (⟨r.1⟩, r.2)) := by
    simp only [encryptInPlace, Draw.bind_apply, hrun, ok_bind]
    rfl
  have hrow : encryptRow s noise = fun target => (do
      Draw.lift (change target (← encryptZero s noise)) : Draw γ GlweSample) :=
    funext (encryptRow_eq noise)
  rw [hinPlace, hencrypt, hrow, hturns, patch_eq_mapM g m hlength hrows]

end Ggsw

end TorusFHE
