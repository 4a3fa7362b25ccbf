/-!
# Binary floating-point numbers of 64 bits

`Binary64` is a bit pattern, so that two numbers are equal exactly when all their bits are and
every pattern, each NaN included, survives being stored.  A finite pattern stands for
`significand * 2 ^ exponent` with a sign; everything that decides or rounds does so on these
integers, and only the sampler and the Fourier transform compute with machine numbers.

* `Binary64.toRat` is the exact value of a finite pattern;
* `Binary64.roundScaled v k` is `v * 2 ^ k` rounded to the nearest integer, halves away from zero;
* `Binary64.fraction` and `Binary64.toInt64Scaled` are defined for all patterns, NaN and infinities
  included.
-/

namespace TorusFHE

/-- A 64-bit floating-point number, as its bits. -/
@[ext] structure Binary64 where
  /-- Sign, eleven bits of exponent and 52 bits of fraction, from the top. -/
  bits : UInt64
deriving DecidableEq, Repr

namespace Binary64

def ofFloat (x : Float) : Binary64 :=
  ⟨x.toBits⟩

def toFloat (v : Binary64) : Float :=
  Float.ofBits v.bits

/-! ## Fields and classes -/

/-- The leading bit of a normal significand, `2 ^ 52`, which is not stored. -/
def hiddenBit : Nat :=
  0x10000000000000

/-- The sign bit, set also for negative zero. -/
def isNegative (v : Binary64) : Bool :=
  decide (2048 ≤ v.bits.toNat / hiddenBit)

def biasedExponent (v : Binary64) : Nat :=
  v.bits.toNat / hiddenBit % 2048

def fractionBits (v : Binary64) : Nat :=
  v.bits.toNat % hiddenBit

/-- Neither infinite nor NaN. -/
def IsFinite (v : Binary64) : Prop :=
  v.biasedExponent ≠ 2047

instance (v : Binary64) : Decidable v.IsFinite :=
  inferInstanceAs (Decidable (v.biasedExponent ≠ 2047))

def IsNaN (v : Binary64) : Prop :=
  v.biasedExponent = 2047 ∧ v.fractionBits ≠ 0

instance (v : Binary64) : Decidable v.IsNaN :=
  inferInstanceAs (Decidable (v.biasedExponent = 2047 ∧ v.fractionBits ≠ 0))

/-! ## Exact value -/

/-- The integer `m` of the magnitude `m * 2 ^ exponent` of a finite number. -/
def significand (v : Binary64) : Nat :=
  if v.biasedExponent = 0 then v.fractionBits else hiddenBit + v.fractionBits

def exponent (v : Binary64) : Int :=
  if v.biasedExponent = 0 then -1074 else (v.biasedExponent : Int) - 1075

def signed (v : Binary64) (magnitude : Nat) : Int :=
  if v.isNegative then -(magnitude : Int) else magnitude

/-- The exact value of a finite number. -/
def toRat (v : Binary64) : Rat :=
  (v.signed v.significand : Rat) * 2 ^ v.exponent

/-! ## Rounding -/

/-- The magnitude `m * 2 ^ e` rounded to the nearest natural number, halves up. -/
def roundMagnitude (m : Nat) (e : Int) : Nat :=
  if 0 ≤ e then m <<< e.toNat
  else (m + 1 <<< ((-e).toNat - 1)) >>> (-e).toNat

/-- The product of a finite number and `2 ^ k`, rounded to the nearest integer, halves away from
zero. -/
def roundScaled (v : Binary64) (k : Int) : Int :=
  v.signed (roundMagnitude v.significand (v.exponent + k))

/-- The significand of the part behind the binary point, weighed as before. -/
def fractionalSignificand (v : Binary64) : Nat :=
  v.significand % (1 <<< (-v.exponent).toNat)

/-! ## Dyadic fractions -/

/-- The number `i * 2 ^ e`, exact for `|i| < 2 ^ 53` and exponents of moderate size. -/
def ofScaledInt (i : Int) (e : Int) : Binary64 :=
  let magnitude := i.natAbs
  if magnitude = 0 then ⟨0⟩
  else
    let top := magnitude.log2
    let sign := if i < 0 then 0x8000000000000000 else 0
    let biased := ((top : Int) + e + 1023).toNat
    ⟨UInt64.ofNat (sign + biased * hiddenBit + (magnitude <<< (52 - top) - hiddenBit))⟩

/-! ## Steps of conversions -/

/-- A NaN, as operations without a result return it. -/
def nan : Binary64 :=
  ⟨0x7ff8000000000000⟩

/-- What is left of a number once its integer part is taken away.  An infinity has nothing left. -/
def fraction (v : Binary64) : Binary64 :=
  if v.IsFinite then
    if v.significand ≠ 0 ∧ v.fractionalSignificand = v.significand then v
    else ofScaledInt (v.signed v.fractionalSignificand) v.exponent
  else nan

/-- The product of a number and `2 ^ k` as the nearest integer of 64 bits: halves go away from zero,
products beyond the range to its end, and NaN to zero. -/
def toInt64Scaled (v : Binary64) (k : Int) : Int :=
  let least := Int64.minValue.toInt
  let greatest := Int64.maxValue.toInt
  if v.IsNaN then 0
  else if v.IsFinite then max least (min greatest (v.roundScaled k))
  else if v.isNegative then least else greatest

/-- The nearest integer of 64 bits. -/
def toInt64 (v : Binary64) : Int :=
  v.toInt64Scaled 0

end Binary64

end TorusFHE
