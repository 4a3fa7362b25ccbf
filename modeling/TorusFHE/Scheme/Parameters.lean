import TorusFHE.Random.Normal
import TorusFHE.Real.Decimal
import TorusFHE.Torus.Gadget

/-!
# Parameters

The nine numbers that fix an instance of the scheme: the dimensions of its keys, the noise of its
two kinds of samples, and the gadgets of bootstrapping and of key switching.  Any nine numbers can be
read or stored; `Parameters.validate` says which of them make an instance, and blames the first
field that does not.
-/

namespace TorusFHE

/-- The parameters of an instance, not yet known to fit together. -/
@[ext] structure Parameters where
  lweDimension : UInt64
  glweDimension : UInt64
  polynomialSize : UInt64
  /-- The standard deviation of the noise of samples, in turns. -/
  lweStdDev : Binary64
  /-- The standard deviation of the noise of ring samples, in turns. -/
  glweStdDev : Binary64
  pbsBaseLog : UInt64
  pbsLevel : UInt64
  ksBaseLog : UInt64
  ksLevel : UInt64
deriving DecidableEq, Repr

/-- A setting that an error can blame. -/
inductive Setting where
  | lweDimension
  | glweDimension
  | polynomialSize
  | lweStdDev
  | glweStdDev
  | pbsBaseLog
  | pbsLevel
  | ksBaseLog
  | ksLevel
  /-- The choice among the predefined parameters. -/
  | preset
deriving DecidableEq, Repr

def Setting.name : Setting → String
  | lweDimension => "lwe_dimension"
  | glweDimension => "glwe_dimension"
  | polynomialSize => "polynomial_size"
  | lweStdDev => "lwe_modular_std_dev"
  | glweStdDev => "glwe_modular_std_dev"
  | pbsBaseLog => "pbs_base_log"
  | pbsLevel => "pbs_level"
  | ksBaseLog => "ks_base_log"
  | ksLevel => "ks_level"
  | preset => "parameters_set"

inductive Objection where
  | zero
  | exceeds (value limit : Nat)
  | notPowerOfTwo (value : Nat)
  | notPositive (stdDev : Binary64)
  | notBelow (stdDev limit : Binary64)
  | tooManyBits (baseLog level : Nat)
  | unknownName (name : String)
deriving DecidableEq, Repr

def Objection.message : Objection → String
  | zero => "must be positive"
  | exceeds value limit => s!"{value} exceeds {limit}"
  | notPowerOfTwo value => s!"{value} is not a power of two >= 2"
  | notPositive stdDev => s!"{stdDev.plainText} is not positive"
  | notBelow stdDev limit => s!"{stdDev.plainText} is not below {limit.plainText}"
  | tooManyBits baseLog level => s!"{baseLog} * {level} exceeds the 32 bits of the torus"
  | unknownName name => s!"unknown preset `{name}`"

structure InvalidSetting where
  setting : Setting
  objection : Objection
deriving DecidableEq, Repr

def InvalidSetting.message (e : InvalidSetting) : String :=
  s!"invalid parameter `{e.setting.name}`: {e.objection.message}"

structure Noise (γ : Type) where
  lwe : Sampler γ Torus
  glwe : Sampler γ Torus

namespace Parameters

def n (p : Parameters) : Nat :=
  p.lweDimension.toNat

def k (p : Parameters) : Nat :=
  p.glweDimension.toNat

def degree (p : Parameters) : Nat :=
  p.polynomialSize.toNat

def pbsGadget (p : Parameters) : Except Fault Gadget :=
  Gadget.ofSizes p.pbsBaseLog.toNat p.pbsLevel.toNat

def ksGadget (p : Parameters) : Except Fault Gadget :=
  Gadget.ofSizes p.ksBaseLog.toNat p.ksLevel.toNat

def noise {γ : Type} [Generator γ] (p : Parameters) : Noise γ where
  lwe := gaussian p.lweStdDev
  glwe := gaussian p.glweStdDev

/-! ## Validation -/

def maxLweDimension : Nat :=
  0x10000

def maxGlweDimension : Nat :=
  0x100

def maxPolynomialSize : Nat :=
  0x10000

/-- The standard deviation `1 / 32`; four of them reach across the margin of `1 / 8` that decryption
has. -/
def stdDevLimit : Binary64 :=
  ⟨0x3fa0000000000000⟩

/-- Refuses the value of a setting unless a condition holds. -/
def require (s : Setting) (holds : Prop) [Decidable holds] (o : Objection) :
    Except InvalidSetting Unit :=
  if holds then .ok () else .error ⟨s, o⟩

/-- Checks that a dimension is positive and at most `limit`. -/
def checkDimension (s : Setting) (value limit : Nat) : Except InvalidSetting Unit := do
  require s (0 < value) .zero
  require s (value ≤ limit) (.exceeds value limit)

/-- Checks that a standard deviation is a finite number strictly between zero and the limit. -/
def checkStdDev (s : Setting) (value : Binary64) : Except InvalidSetting Unit := do
  require s (value.IsFinite ∧ 0 < value.toRat) (.notPositive value)
  require s (value.toRat < stdDevLimit.toRat) (.notBelow value stdDevLimit)

/-- Checks that base and depth make a gadget. -/
def checkGadget (baseLogSetting levelSetting : Setting) (baseLog level : Nat) :
    Except InvalidSetting Unit := do
  require baseLogSetting (0 < baseLog) .zero
  require levelSetting (0 < level) .zero
  require levelSetting (baseLog * level ≤ 32) (.tooManyBits baseLog level)

/-- Checks every constraint on the parameters and reports the first offending setting. -/
def validate (p : Parameters) : Except InvalidSetting Unit := do
  checkDimension .lweDimension p.n maxLweDimension
  checkDimension .glweDimension p.k maxGlweDimension
  checkDimension .polynomialSize p.degree maxPolynomialSize
  require .polynomialSize (2 ≤ p.degree ∧ p.degree.isPowerOfTwo) (.notPowerOfTwo p.degree)
  checkStdDev .lweStdDev p.lweStdDev
  checkStdDev .glweStdDev p.glweStdDev
  checkGadget .pbsBaseLog .pbsLevel p.pbsBaseLog.toNat p.pbsLevel.toNat
  checkGadget .ksBaseLog .ksLevel p.ksBaseLog.toNat p.ksLevel.toNat

/-- The parameters themselves, if they make an instance. -/
def checked (p : Parameters) : Except InvalidSetting Parameters := do
  p.validate
  return p

/-! ## Text -/

def texts (p : Parameters) : List String :=
  [toString p.lweDimension, toString p.glweDimension, toString p.polynomialSize,
    p.lweStdDev.plainText, p.glweStdDev.plainText,
    toString p.pbsBaseLog, toString p.pbsLevel, toString p.ksBaseLog, toString p.ksLevel]

/-- One field of a structure in detailed text: its name, and the value under the name of its type. -/
def fieldText (s : Setting) (typeName value : String) : String :=
  s!"{s.name}: {typeName}({value})"

/-- The settings with the names of their types. -/
def detailedText (p : Parameters) : String :=
  let fields := [
    fieldText .lweDimension "LweDimension" (toString p.lweDimension),
    fieldText .glweDimension "GlweDimension" (toString p.glweDimension),
    fieldText .polynomialSize "PolynomialSize" (toString p.polynomialSize),
    fieldText .lweStdDev "StandardDev" p.lweStdDev.detailedText,
    fieldText .glweStdDev "StandardDev" p.glweStdDev.detailedText,
    fieldText .pbsBaseLog "DecompositionBaseLog" (toString p.pbsBaseLog),
    fieldText .pbsLevel "DecompositionLevelCount" (toString p.pbsLevel),
    fieldText .ksBaseLog "DecompositionBaseLog" (toString p.ksBaseLog),
    fieldText .ksLevel "DecompositionLevelCount" (toString p.ksLevel)]
  "BooleanParameters \x7b " ++ ", ".intercalate fields ++ " \x7d"

end Parameters

end TorusFHE
