/-!
# Faults — inputs outside the domain of an operation

Vectors, polynomials and gadgets carry their sizes as data, so an operation may meet operands whose
sizes do not fit.  Such a call has no answer: it returns a `Fault`, and whatever it had drawn or
built is lost.  Faults are kept apart from the errors of the public interface
(`TorusFHE.Error`), which are answers.
-/

namespace TorusFHE

/-- Why an operation has no answer. -/
inductive Fault where
  | lengthMismatch (left right : Nat)
  | notPowerOfTwo (size : Nat)
  /-- A transform needs at least two coefficients. -/
  | transformTooSmall (size : Nat)
  /-- No torus element is the fraction `1 / 2 ^ logInverse` of a turn. -/
  | notAFraction (logInverse : Nat)
  /-- A gadget needs a positive base and depth that together cover at most 32 bits. -/
  | invalidGadget (logBase levels : Nat)
  /-- A coefficient beyond the end of a polynomial, or a polynomial beyond the end of a mask. -/
  | outOfRange (index size : Nat)
deriving DecidableEq, Repr

/-- Combines two lists of equal length entry by entry. -/
def zipExact {α β γ : Type} (f : α → β → γ) (l : List α) (r : List β) : Except Fault (List γ) :=
  if l.length = r.length then .ok (List.zipWith f l r)
  else .error (.lengthMismatch l.length r.length)

end TorusFHE
