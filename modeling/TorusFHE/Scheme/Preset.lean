import TorusFHE.Scheme.Parameters

/-!
# Predefined parameters

Two instances come by name.  `standard` is faster to evaluate on, `conservative` has the lower
probability of failure.
-/

namespace TorusFHE

inductive Preset where
  | standard
  | conservative
deriving DecidableEq, Repr

namespace Preset

def all : List Preset :=
  [standard, conservative]

/-- The name by which a choice is printed and found. -/
def name : Preset → String
  | standard => "default"
  | conservative => "tfhe_lib"

/-- The choice of a name, in which the case of ASCII letters does not count. -/
def ofName (s : String) : Except InvalidSetting Preset :=
  let lower := s.map Char.toLower
  if lower = "default" then .ok standard
  else if lower = "tfhe_lib" ∨ lower = "tfhe-lib" then .ok conservative
  else .error ⟨.preset, .unknownName s⟩

def parameters : Preset → Parameters
  | standard => {
      lweDimension := 722
      glweDimension := 2
      polynomialSize := 512
      lweStdDev := ⟨0x3eeb6973759c0bfb⟩
      glweStdDev := ⟨0x3e6aca93ee2836bc⟩
      pbsBaseLog := 6
      pbsLevel := 3
      ksBaseLog := 3
      ksLevel := 4 }
  | conservative => {
      lweDimension := 830
      glweDimension := 2
      polynomialSize := 1024
      lweStdDev := ⟨0x3eb7b1bdec6d80d3⟩
      glweStdDev := ⟨0x3cb53001d2dbc336⟩
      pbsBaseLog := 23
      pbsLevel := 1
      ksBaseLog := 5
      ksLevel := 3 }

end Preset

end TorusFHE
