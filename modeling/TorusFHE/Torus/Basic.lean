import TorusFHE.Fault

/-!
# The discretized torus

An element of the torus `ℝ / ℤ` is kept to 32 bits: the word `w` stands for the angle `w / 2 ^ 32`
of a turn.  Sums, differences and products are those of words, so they wrap.

* `Torus.centered` reads an element as a signed number of units of `2 ^ -32` turns;
* `Torus.ofInt` reduces any number of units;
* `Torus.fraction` is the angle `1 / 2 ^ l` of a turn;
* `Torus.toByte` and the like are the numbers of units as words of other widths.
-/

namespace TorusFHE

/-- An angle, in units of `2 ^ -32` turns. -/
@[ext] structure Torus where
  /-- The number of units, at most one turn. -/
  word : UInt32
deriving DecidableEq, Repr, Inhabited

namespace Torus

instance : Zero Torus := ⟨⟨0⟩⟩

instance : One Torus := ⟨⟨1⟩⟩

instance : Add Torus := ⟨fun x y => ⟨x.word + y.word⟩⟩

instance : Sub Torus := ⟨fun x y => ⟨x.word - y.word⟩⟩

instance : Mul Torus := ⟨fun x y => ⟨x.word * y.word⟩⟩

instance : Neg Torus := ⟨fun x => ⟨-x.word⟩⟩

@[simp] theorem word_zero : (0 : Torus).word = 0 := rfl

@[simp] theorem word_one : (1 : Torus).word = 1 := rfl

@[simp] theorem word_add (x y : Torus) : (x + y).word = x.word + y.word := rfl

@[simp] theorem word_sub (x y : Torus) : (x - y).word = x.word - y.word := rfl

@[simp] theorem word_mul (x y : Torus) : (x * y).word = x.word * y.word := rfl

@[simp] theorem word_neg (x : Torus) : (-x).word = -x.word := rfl

/-- The least number of units, in `[0, 2 ^ 32)`. -/
def toNat (x : Torus) : Nat :=
  x.word.toNat

/-- The number of units nearest to zero, in `[-2 ^ 31, 2 ^ 31)`. -/
def centered (x : Torus) : Int :=
  Int.bmod x.toNat UInt32.size

/-- The angle of `i` units, whole turns dropped. -/
def ofInt (i : Int) : Torus :=
  ⟨UInt32.ofInt i⟩

def ofNat (n : Nat) : Torus :=
  ⟨UInt32.ofNat n⟩

/-- Whether the element lies in the second half of the turn. -/
def upperHalf (x : Torus) : Bool :=
  decide (0x80000000 ≤ x.toNat)

/-- The fraction `1 / 2 ^ l` of a turn, for `l` from 1 to 32. -/
def fraction (l : Nat) : Torus :=
  ofNat (1 <<< (32 - l))

/-- The fraction `1 / 2 ^ l` of a turn, refused where it is no proper fraction or not exact. -/
def fraction? (l : Nat) : Except Fault Torus :=
  if 0 < l ∧ l ≤ 32 then .ok (fraction l) else .error (.notAFraction l)

/-! ## Order and conversions -/

/-- Elements are ordered by their least numbers of units, which respects no operation. -/
instance : LE Torus := ⟨fun x y => x.word ≤ y.word⟩

instance : DecidableLE Torus :=
  fun x y => inferInstanceAs (Decidable (x.word ≤ y.word))

instance : Min Torus := minOfLe

instance : Max Torus := maxOfLe

theorem le_iff_toNat_le (x y : Torus) : x ≤ y ↔ x.toNat ≤ y.toNat :=
  UInt32.le_iff_toNat_le

theorem toNat_min (x y : Torus) : (min x y).toNat = min x.toNat y.toNat := by
  change (if x ≤ y then x else y).toNat = _
  simp only [le_iff_toNat_le, Nat.min_def]
  split <;> rfl

theorem toNat_max (x y : Torus) : (max x y).toNat = max x.toNat y.toNat := by
  change (if x ≤ y then y else x).toNat = _
  simp only [le_iff_toNat_le, Nat.max_def]
  split <;> rfl

/-- The low byte of the number of units. -/
def toByte (x : Torus) : UInt8 :=
  x.word.toUInt8

/-- The least number of units as a word of 64 bits. -/
def toWord64 (x : Torus) : UInt64 :=
  x.word.toUInt64

/-- The same as a signed word, which it never makes negative. -/
def toSigned64 (x : Torus) : Int64 :=
  x.toWord64.toInt64

theorem toNat_toByte (x : Torus) : x.toByte.toNat = x.toNat % 256 :=
  UInt32.toNat_toUInt8 x.word

theorem toNat_toWord64 (x : Torus) : x.toWord64.toNat = x.toNat :=
  UInt32.toNat_toUInt64 x.word

theorem toInt_toSigned64 (x : Torus) : x.toSigned64.toInt = x.toNat := by
  have hlt : x.toNat < 4294967296 := x.word.toNat_lt
  have hword : x.toSigned64.toInt = x.toWord64.toBitVec.toInt := rfl
  have hnat : x.toWord64.toBitVec.toNat = x.toNat := x.toNat_toWord64
  rw [hword, BitVec.toInt_eq_toNat_of_lt (by omega), hnat]

/-- One unit or none. -/
def ofBool (b : Bool) : Torus :=
  if b then 1 else 0

/-- What is left of a secret element. -/
def wipe (_ : Torus) : Torus :=
  0

def text (x : Torus) : String :=
  toString x.toNat

end Torus

end TorusFHE
