import TorusFHE.Glwe.Sample
import TorusFHE.Torus.Gadget

/-!
# Gadget encryptions of a torus element

A gadget encryption of `m` under a key of rank `k` is `k + 1` blocks of ring samples, one sample for
each weight of the gadget.  Every sample starts as an encryption of zero; in block `r < k` the
multiple of `m` by the weight is added to the constant coefficient of mask polynomial `r`, in the
last block to that of the body.
-/

namespace TorusFHE

/-- A gadget encryption, block by block and weight by weight. -/
structure GgswSample where
  rows : List GlweSample
deriving DecidableEq, Repr

/-- Adds `c` to the constant coefficient of mask polynomial `r`, or of the body if there are no more
than `r` mask polynomials. -/
def GlweSample.addConstant (s : GlweSample) (r : Nat) (c : Torus) : Except Fault GlweSample :=
  match s.mask[r]? with
  | some p => return { s with mask := s.mask.set r (← p.addAt 0 c) }
  | none => return { s with body := ← s.body.addAt 0 c }

namespace Ggsw

/-- The block and the multiple of the weight of each row, in order. -/
def targets (g : Gadget) (rank : Nat) (m : Torus) : List (Nat × Torus) :=
  (List.range (rank + 1)).flatMap fun r => (g.powers m).map fun c => (r, c)

/-- The gadget encryption of `m`; draws the rows one after the other. -/
def encrypt {γ : Type} [Generator γ] (g : Gadget) (s : Glwe.MaskProduct) (m : Torus)
    (noise : Sampler γ Torus) : Draw γ GgswSample := do
  let rows ← (targets g s.rank m).mapM fun target => do
    let zero ← Draw.lift (Polynomial.zero s.degree)
    let row ← Glwe.encrypt s zero noise
    Draw.lift (row.addConstant target.1 target.2)
  return ⟨rows⟩

end Ggsw

end TorusFHE
