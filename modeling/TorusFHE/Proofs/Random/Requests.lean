import Mathlib.Logic.Relation
import TorusFHE.Proofs.Random.Draw
import TorusFHE.Random.ChaCha20
import TorusFHE.Random.Normal

/-!
# Requests to a generator

A generator can be asked for a word of 32 or of 64 bits and for a run of bytes.  Whatever draws from
it does so by such requests and touches its state in no other way: the state behind a draw is reached
from the state before it by requests.  So no draw sets a generator back or puts another in its place.

* `Generator.Reaches`: the states behind any number of requests;
* `Draw.Advances`: draws by requests only, with a rule for each way in which draws are put together;
* `gaussian_advances`: noise is drawn by requests, however many rounds it takes.
-/

namespace TorusFHE

namespace Generator

/-- What a generator can be asked for, by the type of the answer. -/
inductive Request : Type → Type
  | word : Request UInt32
  | word64 : Request UInt64
  | bytes (count : Nat) : Request (Vector UInt8 count)

variable {γ : Type} [Generator γ]

def Request.sampler {α : Type} : Request α → Sampler γ α
  | word => Generator.next
  | word64 => Generator.next64
  | bytes count => Generator.fill count

/-- One request leads from a state to the next. -/
inductive Step : γ → γ → Prop
  | request {α : Type} (r : Request α) (g : γ) : Step g (r.sampler g).2

/-- The second state lies behind any number of requests made in the first. -/
abbrev Reaches : γ → γ → Prop :=
  Relation.ReflTransGen Step

end Generator

open Generator (Request Reaches)

variable {γ α β : Type} [Generator γ]

/-! ## Samplers -/

namespace Sampler

/-- The sampler draws by requests only. -/
def Advances (s : Sampler γ α) : Prop :=
  ∀ g, Reaches g (s g).2

theorem request_advances (r : Request α) : (r.sampler : Sampler γ α).Advances :=
  fun g => .single (.request r g)

/-- Several values in a row are drawn by the requests for each of them. -/
theorem Advances.repeated {s : Sampler γ α} (h : s.Advances) (n : Nat) :
    (s.repeated n).Advances := by
  intro g
  induction n generalizing g with
  | zero => exact .refl
  | succ n ih =>
    rw [repeated_succ]
    exact (h g).trans (ih (s g).2)

theorem uniform_advances : (uniform : Sampler γ Torus).Advances :=
  request_advances .word

theorem bit_advances : (bit : Sampler γ Bool).Advances :=
  request_advances .word

theorem binary_advances : (binary : Sampler γ Torus).Advances :=
  bit_advances

end Sampler

theorem Seed.draw_advances : (Seed.draw : Sampler γ Seed).Advances :=
  Sampler.request_advances (.bytes 32)

/-! ## Draws -/

namespace Draw

/-- Where the draw succeeds, it has drawn by requests only. -/
def Advances (x : Draw γ α) : Prop :=
  ∀ ⦃g : γ⦄ ⦃a : α⦄ ⦃g' : γ⦄, x g = .ok (a, g') → Reaches g g'

theorem sample_advances {s : Sampler γ α} (h : s.Advances) : (sample s).Advances := by
  intro g a g' hrun
  have hvalue : s g = (a, g') := Except.ok.inj hrun
  simpa [hvalue] using h g

theorem lift_advances (x : Except Fault α) : (lift x : Draw γ α).Advances := by
  intro g a g' hrun
  cases (lift_apply_eq_ok_iff.1 hrun).2
  exact .refl

namespace Advances

theorem pure (a : α) : (Pure.pure a : Draw γ α).Advances := by
  intro g b g' hrun
  cases hrun
  exact .refl

theorem bind {x : Draw γ α} {f : α → Draw γ β} (hx : x.Advances) (hf : ∀ a, (f a).Advances) :
    (x >>= f).Advances := by
  intro g b g' hrun
  -- The second part starts from the state that the first one has left.
  rcases bind_apply_eq_ok_iff.1 hrun with ⟨a, g₁, hfirst, hrest⟩
  exact (hx hfirst).trans (hf a hrest)

/-- What is made of the result without a draw makes no request. -/
theorem map {x : Draw γ α} (f : α → β) (hx : x.Advances) : Advances (do return f (← x)) :=
  hx.bind fun a => .pure (f a)

theorem mapM {ι : Type} {f : ι → Draw γ α} (h : ∀ i, (f i).Advances) (l : List ι) :
    (l.mapM f).Advances := by
  induction l with
  | nil => exact .pure []
  | cons i l ih =>
    rw [List.mapM_cons]
    exact (h i).bind fun a => ih.map (a :: ·)

theorem foldlM {ι : Type} {f : α → ι → Draw γ α} (h : ∀ a i, (f a i).Advances) (l : List ι)
    (a : α) : (l.foldlM f a).Advances := by
  induction l generalizing a with
  | nil => exact .pure a
  | cons i l ih =>
    rw [List.foldlM_cons]
    exact (h a i).bind ih

end Advances

end Draw

/-! ## Noise -/

namespace Ziggurat

theorem unitInterval_advances : (unitInterval : Sampler γ Float).Advances :=
  Sampler.request_advances .word64

theorem openInterval_advances : (openInterval : Sampler γ Float).Advances :=
  Sampler.request_advances .word64

theorem tail_advances (u : Float) (n : Nat) (x y : Float) :
    (tail u n x y : Sampler γ Float).Advances := by
  induction n generalizing x y with
  | zero => exact fun _ => .refl
  | succ n ih =>
    intro g
    rw [tail]
    split
    · -- A proposal takes two words, and then there may be another one.
      have hfirst := openInterval_advances g
      have hsecond := openInterval_advances (openInterval g).2
      exact (hfirst.trans hsecond).trans (ih _ _ _)
    · exact .refl

theorem rounds_advances (n : Nat) : (rounds n : Sampler γ Float).Advances := by
  induction n with
  | zero => exact fun _ => .refl
  | succ n ih =>
    intro g
    rcases hnext : Generator.next64 g with ⟨w, g₁⟩
    have hword : Reaches g g₁ := by
      simpa [Request.sampler, hnext] using Sampler.request_advances .word64 g
    have hheight := hword.trans (unitInterval_advances g₁)
    simp only [rounds, hnext]
    -- The point is kept at once, or comes from the tail, or costs one more word to decide.
    split
    · exact hword
    · split
      · exact hword.trans (tail_advances _ _ _ _ _)
      · split
        · exact hheight
        · exact hheight.trans (ih _)

end Ziggurat

theorem gaussian_advances (stdDev : Binary64) : (gaussian stdDev : Sampler γ Torus).Advances :=
  Ziggurat.rounds_advances Ziggurat.maxRounds

end TorusFHE
