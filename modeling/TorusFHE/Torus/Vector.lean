import TorusFHE.Torus.Basic

/-!
# Vectors of torus elements

A vector is a list; its length is data.  Entrywise operations and the dot product refuse operands of
different lengths.  `TorusVec.weightedSum` is the linear combination that key switching rests on.
-/

namespace TorusFHE

abbrev TorusVec := List Torus

namespace TorusVec

def zeros (n : Nat) : TorusVec :=
  List.replicate n 0

def add (v w : TorusVec) : Except Fault TorusVec :=
  zipExact (· + ·) v w

def sub (v w : TorusVec) : Except Fault TorusVec :=
  zipExact (· - ·) v w

/-- The entrywise product. -/
def mul (v w : TorusVec) : Except Fault TorusVec :=
  zipExact (· * ·) v w

def neg (v : TorusVec) : TorusVec :=
  v.map (- ·)

def scale (v : TorusVec) (c : Torus) : TorusVec :=
  v.map (· * c)

def total (v : TorusVec) : Torus :=
  v.foldl (· + ·) 0

/-- The sum of the entrywise products. -/
def dot (v w : TorusVec) : Except Fault Torus :=
  return total (← mul v w)

/-- The sum of vectors of one length; the sum of no vectors has length zero. -/
def sum : List TorusVec → Except Fault TorusVec
  | [] => .ok []
  | v :: vs => vs.foldlM add v

/-- The sum of the vectors, each scaled by its weight. -/
def weightedSum (vs : List TorusVec) (weights : TorusVec) : Except Fault TorusVec := do
  sum (← zipExact scale vs weights)

/-- What is left of a secret vector: no entries. -/
def wipe (_ : TorusVec) : TorusVec :=
  []

/-- The entries in decimal, in brackets and separated by a comma and a blank. -/
def text (v : TorusVec) : String :=
  "[" ++ ", ".intercalate (v.map Torus.text) ++ "]"

end TorusVec

end TorusFHE
