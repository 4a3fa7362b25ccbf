import TorusFHE.Glwe.Ggsw

/-!
# Gadget encryption in place

The rows of a gadget encryption are drawn first, all as encryptions of zero, and changed afterwards.
They are split into those of the mask blocks and those of the last block; the former are cut into
blocks of one row for each weight, the block numbered `r` meets mask polynomial `r`, and the rows of
a block meet the multiples of the weights in step.

* `Ggsw.encryptInPlace` is `Ggsw.encrypt` in this order.
-/

namespace TorusFHE

/-- Blocks of `size` entries of a list, in order; the last may be shorter. -/
def blocks {α : Type} (size : Nat) (l : List α) : List (List α) :=
  if _h : 0 < size ∧ 0 < l.length then l.take size :: blocks size (l.drop size) else []
termination_by l.length
decreasing_by
  rw [List.length_drop]
  exact Nat.sub_lt _h.2 _h.1

namespace GlweSample

/-- Adds `c` to the constant coefficient of mask polynomial `r`. -/
def addToMask (r : Nat) (c : Torus) (s : GlweSample) : Except Fault GlweSample :=
  match s.mask[r]? with
  | some p => return { s with mask := s.mask.set r (← p.addAt 0 c) }
  | none => .error (.outOfRange r s.mask.length)

/-- Adds `c` to the constant coefficient of the body. -/
def addToBody (c : Torus) (s : GlweSample) : Except Fault GlweSample :=
  return { s with body := ← s.body.addAt 0 c }

end GlweSample

namespace Ggsw

/-- Changes rows in step with multiples; what goes without a partner stays as it is. -/
def patchRows (change : Torus → GlweSample → Except Fault GlweSample) :
    TorusVec → List GlweSample → Except Fault (List GlweSample)
  | c :: multiples, row :: rows => do
    let row ← change c row
    let rows ← patchRows change multiples rows
    return row :: rows
  | _, rows => .ok rows

/-- Adds the multiples of `m` to the rows of an encryption of zero. -/
def patch (g : Gadget) (rank : Nat) (m : Torus) (rows : List GlweSample) :
    Except Fault (List GlweSample) := do
  let multiples := (← g.checkedBases).map (m * ·)
  let masks := rows.take (rank * g.levels)
  let bodies := rows.drop (rank * g.levels)
  let masks ← (blocks g.levels masks).zipIdx.mapM fun block =>
    patchRows (GlweSample.addToMask block.2) multiples block.1
  let bodies ← patchRows GlweSample.addToBody multiples bodies
  return masks.flatten ++ bodies

section Encryption

variable {γ : Type} [Generator γ] (s : Glwe.MaskProduct) (noise : Sampler γ Torus)

def encryptZero : Draw γ GlweSample := do
  let zero ← Draw.lift (Polynomial.zero s.degree)
  Glwe.encrypt s zero noise

/-- The gadget encryption of `m`; draws all rows and then changes them. -/
def encryptInPlace (g : Gadget) (m : Torus) : Draw γ GgswSample := do
  let rows ← (List.replicate ((s.rank + 1) * g.levels) ()).mapM fun _ => encryptZero s noise
  let rows ← Draw.lift (patch g s.rank m rows)
  return ⟨rows⟩

end Encryption

end Ggsw

end TorusFHE
