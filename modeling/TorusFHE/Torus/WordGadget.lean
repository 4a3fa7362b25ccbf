import TorusFHE.Torus.Gadget

/-!
# Gadget decomposition on words of 64 bits

The rounding and the digits of `Gadget` as a processor finds them: limbs by masks and shifts, and
the carry of a limb from its bits, without a branch.  Sums, differences and shifts are checked, and
have no result where the exact one is no number of 64 bits.  Two differences are meant to wrap
instead: one less than a limb, and a limb less its carry.

* `Word64.add?` and the like are the checked operations;
* `Gadget.wordRound?` and `Gadget.wordDecompose?` are `Gadget.round` and `Gadget.decompose` on
  words.
-/

namespace TorusFHE

namespace Word64

/-- The word of a number, if 64 bits hold it. -/
def ofNat? (n : Nat) : Option UInt64 :=
  if n < UInt64.size then some (.ofNat n) else none

def add? (a b : UInt64) : Option UInt64 :=
  ofNat? (a.toNat + b.toNat)

def sub? (a b : UInt64) : Option UInt64 :=
  if b ≤ a then ofNat? (a.toNat - b.toNat) else none

def mul? (a b : UInt64) : Option UInt64 :=
  ofNat? (a.toNat * b.toNat)

/-- Shifts up by less than the width of a word, and loses no bit. -/
def shiftLeft? (a : UInt64) (k : Nat) : Option UInt64 :=
  if k < 64 then ofNat? (a.toNat <<< k) else none

/-- Shifts down by less than the width of a word. -/
def shiftRight? (a : UInt64) (k : Nat) : Option UInt64 :=
  if k < 64 then ofNat? (a.toNat >>> k) else none

end Word64

namespace Gadget

open Word64

/-- How many last weights make up the rounded angle: what is above the rounding bits, and one more
if the highest of them is set. -/
def wordUnits? (g : Gadget) (v : Torus) : Option UInt64 :=
  let word := v.word.toUInt64
  if g.roundingBits = 0 then some word
  else do
    let kept ← shiftRight? word g.roundingBits
    let highest ← shiftRight? word (g.roundingBits - 1)
    add? kept (highest &&& 1)

def wordRound? (g : Gadget) (v : Torus) : Option Torus := do
  let units ← g.wordUnits? v
  let word ← shiftLeft? units g.roundingBits
  return ⟨word.toUInt32⟩

/-- Cuts `count` digits from the low end of `state`, the least significant first.  The carry is the
top bit of the limb, unless the limb is half the base and the next position below half. -/
def wordDigits? (g : Gadget) (mask : UInt64) : Nat → UInt64 → Option (List UInt64)
  | 0, _ => some []
  | count + 1, state => do
    let limb := state &&& mask
    let rest ← shiftRight? state g.logBase
    let carry ← shiftRight? ((limb - 1 ||| rest) &&& limb) (g.logBase - 1)
    let rest ← add? rest carry
    let borrowed ← shiftLeft? carry g.logBase
    let digits ← wordDigits? g mask count rest
    return (limb - borrowed) :: digits

def wordDecompose? (g : Gadget) (v : Torus) : Option TorusVec := do
  let base ← shiftLeft? 1 g.logBase
  let mask ← sub? base 1
  let units ← g.wordUnits? v
  let digits ← g.wordDigits? mask g.levels units
  return digits.reverse.map fun digit => ⟨digit.toUInt32⟩

end Gadget

end TorusFHE
