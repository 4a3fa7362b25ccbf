import TorusFHE.Scheme.Parameters
import TorusFHE.Torus.WordGadget

/-!
# Validation on words and machine numbers

The checks of `Parameters.validate` as a processor does them.  Dimensions and sizes are compared as
words of 64 bits, and the product of base and depth is refused where 64 bits do not hold it.
Standard deviations are compared as machine numbers, among them the infinite ones and the NaNs.
-/

namespace TorusFHE

/-- Whether exactly one bit of a word is set. -/
def Word64.isPowerOfTwo (a : UInt64) : Bool :=
  a != 0 && a &&& (a - 1) == 0

namespace Parameters

def wordCheckPositive (s : Setting) (value : UInt64) : Except InvalidSetting Unit :=
  require s (value ≠ 0) .zero

def wordCheckDimension (s : Setting) (value limit : UInt64) : Except InvalidSetting Unit := do
  wordCheckPositive s value
  require s (¬limit < value) (.exceeds value.toNat limit.toNat)

def floatCheckStdDev (s : Setting) (value : Binary64) : Except InvalidSetting Unit := do
  let x := value.toFloat
  require s (x.isFinite ∧ ¬x ≤ 0) (.notPositive value)
  require s (¬1 / 32 ≤ x) (.notBelow value stdDevLimit)

/-- Checks that base and depth make a gadget; where their product overflows, they do not. -/
def wordCheckGadget (baseLogSetting levelSetting : Setting) (baseLog level : UInt64) :
    Except InvalidSetting Unit := do
  wordCheckPositive baseLogSetting baseLog
  wordCheckPositive levelSetting level
  require levelSetting (¬(Word64.mul? baseLog level).all fun bits => 32 < bits)
    (.tooManyBits baseLog.toNat level.toNat)

/-- Checks every constraint on the parameters, as `validate` does. -/
def wordValidate (p : Parameters) : Except InvalidSetting Unit := do
  wordCheckDimension .lweDimension p.lweDimension 0x10000
  wordCheckDimension .glweDimension p.glweDimension 0x100
  wordCheckDimension .polynomialSize p.polynomialSize 0x10000
  require .polynomialSize (¬p.polynomialSize < 2 ∧ Word64.isPowerOfTwo p.polynomialSize)
    (.notPowerOfTwo p.degree)
  floatCheckStdDev .lweStdDev p.lweStdDev
  floatCheckStdDev .glweStdDev p.glweStdDev
  wordCheckGadget .pbsBaseLog .pbsLevel p.pbsBaseLog p.pbsLevel
  wordCheckGadget .ksBaseLog .ksLevel p.ksBaseLog p.ksLevel

end Parameters

end TorusFHE
