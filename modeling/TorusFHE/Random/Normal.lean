import TorusFHE.Random.Generator
import TorusFHE.Random.ZigguratTables
import TorusFHE.Torus.Real

/-!
# Normally distributed noise

The standard normal distribution is sampled by the ziggurat method: a layer and a point in it are
drawn, and the point is kept if it lies under the density.  Points beyond the edge of the widest
layer are drawn from the tail by an exponential proposal.

A round is repeated until a point is kept.  The number of rounds is bounded, far beyond what any
generator that ever succeeds can reach in practice, and the mean is returned at the bound.
-/

namespace TorusFHE

namespace Ziggurat

variable {γ : Type} [Generator γ]

/-- The largest number of rounds before the sampler gives up. -/
def maxRounds : Nat :=
  0x100000

def entry (table : Array UInt64) (i : Nat) : Float :=
  Float.ofBits (table.getD i 0)

/-- The edge of the widest layer, where the tail begins. -/
def tailStart : Float :=
  entry edges 1

/-- A multiple of `2 ^ -53` in `[0, 1)`. -/
def unitInterval : Sampler γ Float := fun g =>
  let (w, g) := Generator.next64 g
  (Float.ofNat (w >>> 11).toNat * Float.ofBits 0x3ca0000000000000, g)

def openInterval : Sampler γ Float := fun g =>
  let (w, g) := Generator.next64 g
  (Float.ofBits (w >>> 12 ||| 0x3ff0000000000000) - Float.ofBits 0x3fefffffffffffff, g)

/-- Draws from the tail on the side of the sign of `u`; goes on while the last proposal `(x, y)` is
above the density. -/
def tail (u : Float) : Nat → Float → Float → Sampler γ Float
  | 0, _, _, g => (0, g)
  | rounds + 1, x, y, g =>
    if -2 * y < x * x then
      let (a, g) := openInterval g
      let (b, g) := openInterval g
      tail u rounds (a.log / tailStart) b.log g
    else (if u < 0 then x - tailStart else tailStart - x, g)

def rounds : Nat → Sampler γ Float
  | 0, g => (0, g)
  | n + 1, g =>
    let (w, g) := Generator.next64 g
    let layer := (w &&& 0xff).toNat
    let u := Float.ofBits (w >>> 12 ||| 0x4000000000000000) - 3
    let x := u * entry edges layer
    if x.abs < entry edges (layer + 1) then (x, g)
    else if layer = 0 then tail u maxRounds 1 0 g
    else
      let (v, g) := unitInterval g
      let low := entry heights (layer + 1)
      if low + (entry heights layer - low) * v < (-x * x / 2).exp then (x, g)
      else rounds n g

end Ziggurat

variable {γ : Type} [Generator γ]

def standardNormal : Sampler γ Float :=
  Ziggurat.rounds Ziggurat.maxRounds

/-- Normally distributed noise on the torus; the standard deviation is in turns. -/
def gaussian (stdDev : Binary64) : Sampler γ Torus := fun g =>
  let (z, g) := standardNormal g
  (Torus.ofReal (.ofFloat (z * stdDev.toFloat)), g)

end TorusFHE
