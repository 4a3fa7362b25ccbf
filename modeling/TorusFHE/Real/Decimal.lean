import TorusFHE.Real.Binary64

/-!
# Shortest decimal text

A finite number is written with the fewest decimal digits that read back to it; among decimals of
that length the nearest is taken, and of two equally near ones the larger.  Reading back is decided
by exact integer arithmetic: `Decimal.readsBack` tests whether a decimal lies between the midpoints
to the two neighbouring numbers, ends included exactly when the significand is even.

Two layouts are used.  `Binary64.plainText` never writes an exponent.  `Binary64.detailedText` marks
whole numbers by `.0` and turns to an exponent below `1e-4` and from `1e16` on.
-/

namespace TorusFHE

/-- The number `digits * 10 ^ exponent`. -/
structure Decimal where
  digits : Nat
  exponent : Int
deriving DecidableEq, Repr

namespace Decimal

/-- The power of ten of a positive exponent, and one for any other. -/
def tens (i : Int) : Nat :=
  Nat.pow 10 i.toNat

/-- Compares `a * 10 ^ i` with `n * 2 ^ j`. -/
def compareScaled (a : Nat) (i : Int) (n : Nat) (j : Int) : Ordering :=
  compare ((a * tens i) <<< (-j).toNat) ((n * tens (-i)) <<< j.toNat)

/-- Whether `d` is nearer to the number `v` than to any other, ties going to even significands. -/
def readsBack (v : Binary64) (d : Decimal) : Bool :=
  let m := v.significand
  let quarter := v.exponent - 2
  -- Below a power of two the neighbours lie twice as dense, except among the smallest numbers.
  let low := if v.fractionBits = 0 ∧ 1 < v.biasedExponent then 4 * m - 1 else 4 * m - 2
  let closed := m % 2 == 0
  let above := compareScaled d.digits d.exponent low quarter
  let below := compareScaled d.digits d.exponent (4 * m + 2) quarter
  (above == .gt || (closed && above == .eq)) && (below == .lt || (closed && below == .eq))

/-- The number of decimal digits of `n`, none for zero. -/
def digitCount (n : Nat) : Nat :=
  if n = 0 then 0 else digitCount (n / 10) + 1

/-- The least `k` with `m * 2 ^ e < 10 ^ k`, for positive `m`. -/
def scale (m : Nat) (e : Int) : Int :=
  let numerator := m <<< e.toNat
  let denominator := 1 <<< (-e).toNat
  if denominator ≤ numerator then digitCount (numerator / denominator)
  else 1 - (digitCount ((denominator - 1) / numerator) : Int)

/-- The decimal on the grid of multiples of `10 ^ i` that reads back to `v` and is nearest to it. -/
def onGrid? (v : Binary64) (i : Int) : Option Decimal :=
  let m := v.significand
  let e := v.exponent
  let under := (m * tens (-i)) <<< e.toNat / (tens i <<< (-e).toNat)
  let lower : Decimal := ⟨under, i⟩
  let upper : Decimal := ⟨under + 1, i⟩
  match readsBack v lower, readsBack v upper with
  | true, true =>
    -- The midpoint of the two is `(2 * under + 1) * 10 ^ i / 2`.
    if compareScaled (2 * under + 1) i m (e + 1) == .gt then some lower else some upper
  | true, false => some lower
  | false, true => some upper
  | false, false => none

def exact (m : Nat) (e : Int) : Decimal :=
  if 0 ≤ e then ⟨m <<< e.toNat, 0⟩ else ⟨m * Nat.pow 5 (-e).toNat, e⟩

/-- Moves trailing zeros of the digits into the exponent, at most `fuel` of them. -/
def trim : Nat → Decimal → Decimal
  | 0, d => d
  | fuel + 1, d =>
    if d.digits ≠ 0 ∧ d.digits % 10 = 0 then trim fuel ⟨d.digits / 10, d.exponent + 1⟩ else d

/-- The shortest decimal that reads back to the magnitude of a finite number. -/
def shortest (v : Binary64) : Decimal :=
  if v.significand = 0 then ⟨0, 0⟩
  else
    let k := scale v.significand v.exponent
    let found := (List.range 17).findSome? fun (n : Nat) => onGrid? v (k - 1 - n)
    trim 17 (found.getD (exact v.significand v.exponent))

/-- The decimal written out to its last digit, with no exponent. -/
def positional (d : Decimal) : String :=
  let text := toString d.digits
  let zeros (n : Nat) := String.ofList (List.replicate n '0')
  if 0 ≤ d.exponent then text ++ zeros d.exponent.toNat
  else
    let places := (-d.exponent).toNat
    if places < text.length then
      let whole := text.length - places
      String.ofList (text.toList.take whole) ++ "." ++ String.ofList (text.toList.drop whole)
    else "0." ++ zeros (places - text.length) ++ text

def leadingExponent (d : Decimal) : Int :=
  ((toString d.digits).length : Int) + d.exponent - 1

/-- One digit before the point, all others behind it, and the power of ten. -/
def scientific (d : Decimal) : String :=
  let text := (toString d.digits).toList
  let rest := text.drop 1
  let point := if rest.isEmpty then "" else "."
  String.ofList (text.take 1) ++ point ++ String.ofList rest ++ "e" ++ toString d.leadingExponent

end Decimal

namespace Binary64

/-- Writes the special values, and puts the sign before `layout` of the shortest decimal. -/
def textWith (layout : Decimal → String) (v : Binary64) : String :=
  if v.IsNaN then "NaN"
  else
    let sign := if v.isNegative then "-" else ""
    sign ++ if v.IsFinite then layout (Decimal.shortest v) else "inf"

/-- The shortest digits, written out with no exponent and no trailing point. -/
def plainText : Binary64 → String :=
  textWith Decimal.positional

/-- The shortest digits with a mark of the kind of number: whole numbers end in `.0`, and numbers
below `1e-4` or from `1e16` on carry an exponent. -/
def detailedText : Binary64 → String :=
  textWith fun d =>
    if d.digits = 0 then "0.0"
    else if d.leadingExponent < -4 ∨ 16 ≤ d.leadingExponent then d.scientific
    else if 0 ≤ d.exponent then d.positional ++ ".0"
    else d.positional

end Binary64

end TorusFHE
