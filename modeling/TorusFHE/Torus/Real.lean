import TorusFHE.Real.Binary64
import TorusFHE.Torus.Basic

/-!
# Angles and real numbers

A real number names an angle: its whole turns are dropped and the rest is rounded to the nearest
unit of `2 ^ -32` turns.  In the other direction an element is read as its centred angle, in
`[-1/2, 1/2)`, which a 64-bit number holds exactly.
-/

namespace TorusFHE.Torus

/-- The angle nearest to `v` turns, halves away from zero: the fraction of `v` in units, kept to an
integer of 64 bits, whose lower half is the angle. -/
def ofReal (v : Binary64) : Torus :=
  ofInt (v.fraction.toInt64Scaled 32)

/-- The centred angle in turns. -/
def toReal (x : Torus) : Binary64 :=
  Binary64.ofScaledInt x.centered (-32)

end TorusFHE.Torus
