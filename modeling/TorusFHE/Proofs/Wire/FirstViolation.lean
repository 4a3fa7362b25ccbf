import TorusFHE.Proofs.Wire.Generated

/-!
# The first violation of a shape

The shape check of a server key goes through four levels of lists and stops at the first length that
is not as prescribed.  The lengths on that way, written one after the other, make a list of
measurements.  The check is that of the parameters and then that of the list, so it accepts exactly
if all measurements fit, and otherwise reports the first one that does not.

* `Measurement`: a length as it is and as it should be;
* `ServerKey.lengths`: the lengths of a server key in the order of the check;
* `ServerKey.checkShape_eq_forM_lengths`: nothing on the way is left out or taken out of turn;
* `ServerKey.checkShape_eq_error_iff`: what is reported is the first violation;
* `ServerKey.sized_of_checkShape`: the accepted keys have the prescribed sizes.
-/

namespace TorusFHE

/-! ## Checks of lists -/

namespace ShapeCheck

theorem size_eq_error_iff {part : SizedPart} {expected found : Nat} {e : ShapeError} :
    size part expected found = .error e ↔ expected ≠ found ∧ e = .size part expected found := by
  by_cases h : expected = found <;> simp [size, h, eq_comm]

/-- Checking list after list is checking them as one. -/
theorem forM_flatMap {α β : Type} (f : α → List β) (check : β → ShapeCheck) (l : List α) :
    (l.flatMap f).forM check = l.forM fun a => (f a).forM check := by
  simp only [List.forM_eq_forM]
  induction l with
  | nil => rfl
  | cons a l ih => rw [List.flatMap_cons, List.forM_append, ih, List.forM_cons]

end ShapeCheck

/-! ## Measurements -/

/-- The length of a part and what the parameters prescribe for it. -/
structure Measurement where
  part : SizedPart
  expected : Nat
  found : Nat
deriving DecidableEq, Repr

namespace Measurement

def check (l : Measurement) : ShapeCheck :=
  ShapeCheck.size l.part l.expected l.found

/-- The error that blames a measurement. -/
def mismatch (l : Measurement) : ShapeError :=
  .size l.part l.expected l.found

/-- Measurements are refused exactly if one of them does not fit, and the first such one is
blamed. -/
theorem forM_check_eq_error_iff {ls : List Measurement} {e : ShapeError} :
    ls.forM check = .error e ↔
      ∃ before l after, ls = before ++ l :: after ∧ (∀ m ∈ before, m.expected = m.found) ∧
        l.expected ≠ l.found ∧ e = l.mismatch := by
  simp only [forM_eq_error_iff, check, ShapeCheck.size_eq_ok_iff,
    ShapeCheck.size_eq_error_iff, mismatch]

end Measurement

open Measurement

/-! ## Lengths on the way -/

/-- The number of mask polynomials, then the size of each of them and of the body. -/
def GlweSample.lengths (p : Parameters) (c : GlweSample) : List Measurement :=
  ⟨.glweMask, p.k, c.mask.length⟩ ::
    (c.mask ++ [c.body]).map fun poly => ⟨.polynomial, p.degree, poly.size⟩

/-- The number of rows, then the lengths of each of them. -/
def GgswSample.lengths (p : Parameters) (c : GgswSample) : List Measurement :=
  ⟨.ggsw, (p.k + 1) * p.pbsLevel.toNat, c.rows.length⟩ :: c.rows.flatMap (GlweSample.lengths p)

/-- The number of samples, then the dimension of each of them. -/
def KeySwitchingKey.lengths (p : Parameters) (k : KeySwitchingKey) : List Measurement :=
  ⟨.keySwitchingKey, p.k * p.degree * p.ksLevel.toNat, k.samples.length⟩ ::
    k.samples.map fun c => ⟨.keySwitchingKeyMask, p.n, c.dimension⟩

/-- The number of gadget encryptions, the lengths of each of them, then those of the key-switching
key. -/
def ServerKey.lengths (k : ServerKey) : List Measurement :=
  ⟨.bootstrappingKey, k.params.n, k.bootstrappingKey.length⟩ ::
    (k.bootstrappingKey.flatMap (GgswSample.lengths k.params) ++
      k.keySwitchingKey.lengths k.params)

section

variable {p : Parameters}

theorem GlweSample.forM_lengths (c : GlweSample) : (c.lengths p).forM check = c.checkShape p := by
  simp only [lengths, checkShape, List.forM_eq_forM, List.forM_cons, List.forM_map]
  rfl

theorem GgswSample.forM_lengths (c : GgswSample) : (c.lengths p).forM check = c.checkShape p := by
  have hrows := ShapeCheck.forM_flatMap (GlweSample.lengths p) check c.rows
  simp only [GlweSample.forM_lengths, List.forM_eq_forM] at hrows
  simp only [lengths, checkShape, List.forM_eq_forM, List.forM_cons, hrows]
  rfl

theorem KeySwitchingKey.forM_lengths (k : KeySwitchingKey) :
    (k.lengths p).forM check = k.checkShape p := by
  simp only [lengths, checkShape, List.forM_eq_forM, List.forM_cons, List.forM_map]
  rfl

end

namespace ServerKey

variable {k : ServerKey}

/-- The check of the parameters comes first, and then that of all lengths in turn. -/
theorem checkShape_eq_forM_lengths (k : ServerKey) :
    k.checkShape = (k.params.checkShape >>= fun _ => k.lengths.forM check) := by
  have hggsws := ShapeCheck.forM_flatMap (GgswSample.lengths k.params) check k.bootstrappingKey
  have hswitching := k.keySwitchingKey.forM_lengths (p := k.params)
  simp only [GgswSample.forM_lengths, List.forM_eq_forM] at hggsws hswitching
  simp only [lengths, checkShape, List.forM_eq_forM, List.forM_cons, List.forM_append, hggsws,
    hswitching]
  rfl

/-- A server key is refused for its parameters, or, where these make an instance, for the first of
its lengths that is not as they prescribe. -/
theorem checkShape_eq_error_iff {e : ShapeError} :
    k.checkShape = .error e ↔
      (∃ cause, k.params.validate = .error cause ∧ e = .parameters cause) ∨
        k.params.Valid ∧
          ∃ before l after, k.lengths = before ++ l :: after ∧
            (∀ m ∈ before, m.expected = m.found) ∧ l.expected ≠ l.found ∧ e = l.mismatch := by
  rw [checkShape_eq_forM_lengths, check_bind_eq_error_iff, forM_check_eq_error_iff,
    Parameters.checkShape_eq_ok_iff, Parameters.checkShape, mapError_eq_error_iff]

end ServerKey

/-! ## Accepted keys -/

theorem GlweSample.shaped_of_checkShape {p : Parameters} {c : GlweSample}
    (h : c.checkShape p = .ok ()) : c.Shaped p.k p.degree := by
  rcases checkShape_eq_ok_iff.1 h with ⟨hrank, hpolys⟩
  rcases List.forall_mem_append.1 hpolys with ⟨hmask, hbody⟩
  exact ⟨hrank.symm, fun q hq => (hmask q hq).symm, (hbody c.body (by simp)).symm⟩

/-- The sizes that the check asks for are the prescribed ones. -/
theorem ServerKey.sized_of_checkShape {k : ServerKey} (h : k.checkShape = .ok ()) :
    k.Sized k.params := by
  rcases checkShape_eq_ok_iff.1 h with ⟨-, hlength, hggsws, hswitching⟩
  have hggsw := fun c hc => GgswSample.checkShape_eq_ok_iff.1 (hggsws c hc)
  rcases KeySwitchingKey.checkShape_eq_ok_iff.1 hswitching with ⟨hsamples, hmasks⟩
  exact {
    bootstrappingKey := hlength.symm
    rows := fun c hc => (hggsw c hc).1.symm
    shaped := fun c hc row hrow => GlweSample.shaped_of_checkShape ((hggsw c hc).2 row hrow)
    keySwitchingKey := hsamples.symm
    samples := fun d hd => (hmasks d hd).symm }

end TorusFHE
