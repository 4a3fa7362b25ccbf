import TorusFHE.Torus.Vector

/-!
# Polynomials with torus coefficients

An element of `T[X] / (X ^ N + 1)` is the list of its `N` coefficients, the constant one first.
`N` is a power of two; `Polynomial.ofVec` refuses any other length, and so does every operation that
builds a polynomial.  The type itself leaves the length free, since polynomials are read from
untrusted bytes before their lengths are known to fit.
-/

namespace TorusFHE

/-- A polynomial, as its coefficients in ascending order. -/
@[ext] structure Polynomial where
  coeffs : TorusVec
deriving DecidableEq, Repr, Inhabited

namespace Polynomial

def size (p : Polynomial) : Nat :=
  p.coeffs.length

/-- The polynomial with these coefficients, whose number must be a power of two. -/
def ofVec (v : TorusVec) : Except Fault Polynomial :=
  if v.length.isPowerOfTwo then .ok ⟨v⟩ else .error (.notPowerOfTwo v.length)

def zero (n : Nat) : Except Fault Polynomial :=
  ofVec (TorusVec.zeros n)

/-- Adds `c` to the coefficient of `X ^ i`. -/
def addAt (p : Polynomial) (i : Nat) (c : Torus) : Except Fault Polynomial :=
  if i < p.size then .ok ⟨p.coeffs.modify i (· + c)⟩ else .error (.outOfRange i p.size)

/-- The constant polynomial `c`, of `n` coefficients. -/
def constant (n : Nat) (c : Torus) : Except Fault Polynomial := do
  (← zero n).addAt 0 c

def add (p q : Polynomial) : Except Fault Polynomial := do
  ofVec (← p.coeffs.add q.coeffs)

def sub (p q : Polynomial) : Except Fault Polynomial := do
  ofVec (← p.coeffs.sub q.coeffs)

def neg (p : Polynomial) : Except Fault Polynomial :=
  ofVec p.coeffs.neg

def scale (p : Polynomial) (c : Torus) : Except Fault Polynomial :=
  ofVec (p.coeffs.scale c)

/-- The sum of polynomials of one size; the sum of no polynomials has no coefficients. -/
def sum (ps : List Polynomial) : Except Fault Polynomial :=
  return ⟨← TorusVec.sum (ps.map coeffs)⟩

/-- What is left of a secret polynomial: no coefficients. -/
def wipe (p : Polynomial) : Polynomial :=
  ⟨p.coeffs.wipe⟩

end Polynomial

end TorusFHE
