import TorusFHE.Lwe.Sample
import TorusFHE.Torus.Gadget

/-!
# Key switching

A key-switching key from `s` to `t` holds, for every entry of `s` in order and every weight of a
gadget, an encryption under `t` of the negated entry times the weight.  The mask of a sample under
`s` is decomposed into digits, and the combination of the key's samples by these digits, with the
body added, is a sample of nearly the same phase under `t`.
-/

namespace TorusFHE

/-- A key-switching key: the samples of one source entry follow each other, weight by weight. -/
structure KeySwitchingKey where
  samples : List LweSample
deriving DecidableEq

namespace KeySwitchingKey

/-- What the samples of a key from `source` encrypt, in order. -/
def plaintexts (g : Gadget) (source : TorusVec) : TorusVec :=
  source.flatMap fun s => g.powers (-s)

def generate {γ : Type} [Generator γ] (g : Gadget) (source : TorusVec) (target : LweKey)
    (noise : Sampler γ Torus) : Draw γ KeySwitchingKey := do
  return ⟨← (plaintexts g source).mapM fun m => target.encrypt m noise⟩

/-- Turns a sample under the source key into one under the target key. -/
def switch (k : KeySwitchingKey) (g : Gadget) (c : LweSample) : Except Fault LweSample := do
  let digits : TorusVec := c.mask.flatMap g.decompose
  let mask ← TorusVec.weightedSum (k.samples.map LweSample.mask) digits
  let body ← TorusVec.dot (k.samples.map LweSample.body) digits
  return ⟨mask, body + c.body⟩

end KeySwitchingKey

end TorusFHE
