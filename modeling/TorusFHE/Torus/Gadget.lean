import TorusFHE.Torus.Vector

/-!
# Gadget decomposition

A gadget of base `B = 2 ^ logBase` and `levels` levels writes an angle as a signed combination of
the fractions `1 / B, 1 / B ^ 2, …` of a turn.  What lies below the last fraction is rounded away
first; the rounded angle is then cut into digits from the least significant one on, and a digit
above half the base borrows from the next one, so that all digits lie in `[-B / 2, B / 2]`.

* `Gadget.round` is the nearest angle that the gadget can write;
* `Gadget.digits` are its digits, the most significant first;
* `Gadget.decompose` are the same digits as torus elements, `Gadget.bases` their weights.
-/

namespace TorusFHE

/-- The base and the depth of a decomposition. -/
structure Gadget where
  logBase : Nat
  levels : Nat
  logBase_pos : 0 < logBase
  levels_pos : 0 < levels
  /-- The digits cover no more than the 32 bits of the torus. -/
  bits_le : logBase * levels ≤ 32
deriving DecidableEq

namespace Gadget

/-- The gadget of this base and depth, refused where the two do not make one. -/
def ofSizes (logBase levels : Nat) : Except Fault Gadget :=
  if h : 0 < logBase ∧ 0 < levels ∧ logBase * levels ≤ 32 then
    .ok ⟨logBase, levels, h.1, h.2.1, h.2.2⟩
  else .error (.invalidGadget logBase levels)

def base (g : Gadget) : Nat :=
  1 <<< g.logBase

def half (g : Gadget) : Nat :=
  1 <<< (g.logBase - 1)

/-- The number of low bits that no digit covers. -/
def roundingBits (g : Gadget) : Nat :=
  32 - g.logBase * g.levels

/-- The last weight, in units of `2 ^ -32` turns. -/
def lastWeight (g : Gadget) : Nat :=
  1 <<< g.roundingBits

/-- The fractions `1 / B ^ j` of a turn, for `j` from 1 to the number of levels. -/
def bases (g : Gadget) : TorusVec :=
  (List.range g.levels).map fun j => Torus.fraction ((j + 1) * g.logBase)

/-- The same fractions, each refused unless it is a proper one that 32 bits hold. -/
def checkedBases (g : Gadget) : Except Fault TorusVec :=
  (List.range g.levels).mapM fun j => Torus.fraction? ((j + 1) * g.logBase)

def powers (g : Gadget) (v : Torus) : TorusVec :=
  g.bases.map (v * ·)

/-! ## Rounding -/

/-- How many last weights make up the nearest angle that the gadget can write, halves up. -/
def roundedUnits (g : Gadget) (v : Torus) : Nat :=
  (v.toNat + g.lastWeight / 2) / g.lastWeight

/-- The nearest angle that the gadget can write, halves up. -/
def round (g : Gadget) (v : Torus) : Torus :=
  Torus.ofNat (g.roundedUnits v * g.lastWeight)

/-! ## Digits -/

/-- What a digit position passes on: one if its value is above half the base, or exactly half and
the next position is at least half itself. -/
def carry (g : Gadget) (limb rest : Nat) : Nat :=
  if g.half < limb ∨ (limb = g.half ∧ g.half ≤ rest % g.base) then 1 else 0

/-- Cuts `count` digits from the low end of `units`, the least significant first. -/
def digitsFrom (g : Gadget) : Nat → Nat → List Int
  | 0, _ => []
  | count + 1, units =>
    let limb := units % g.base
    let rest := units / g.base
    let up := g.carry limb rest
    ((limb : Int) - up * g.base) :: digitsFrom g count (rest + up)

/-- The digits of the rounded angle, the most significant first. -/
def digits (g : Gadget) (v : Torus) : List Int :=
  (g.digitsFrom g.levels (g.roundedUnits v)).reverse

/-- The digits as torus elements. -/
def decompose (g : Gadget) (v : Torus) : TorusVec :=
  (g.digits v).map Torus.ofInt

end Gadget

end TorusFHE
