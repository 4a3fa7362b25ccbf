import TorusFHE.Proofs.Random.Draw

/-!
# Two runs in step

Two computations run in step if from every state both succeed and leave one and the same state.
What sets them apart can then be seen in their results only: whoever watches the generator learns
nothing.  `Draw.InStep` says so together with a relation between the results, and has a rule for
each way in which computations are put together.

* `Draw.InStep.bind`: related results carried on in step;
* `Draw.Follows.inStep`: computations that follow one sampler run in step.
-/

namespace TorusFHE.Draw

variable {γ α β α' β' : Type}

/-- From every state, both computations succeed and leave one state, with results in this
relation. -/
def InStep (x : Draw γ α) (y : Draw γ β) (R : α → β → Prop) : Prop :=
  ∀ g, ∃ a b g', x g = .ok (a, g') ∧ y g = .ok (b, g') ∧ R a b

namespace InStep

variable {x : Draw γ α} {y : Draw γ β} {R : α → β → Prop} {Q : α' → β' → Prop}

theorem pure {a : α} {b : β} (h : R a b) : InStep (Pure.pure a : Draw γ α) (Pure.pure b) R :=
  fun g => ⟨a, b, g, rfl, rfl, h⟩

/-- What is computed without a draw leaves the state alone. -/
theorem lift {u : Except Fault α} {v : Except Fault β} {a : α} {b : β} (hu : u = .ok a)
    (hv : v = .ok b) :
    InStep (Draw.lift u : Draw γ α) (Draw.lift v) fun a' b' => a' = a ∧ b' = b := by
  subst hu hv
  exact fun g => ⟨a, b, g, rfl, rfl, rfl, rfl⟩

/-- Both draw one value of the sampler. -/
theorem sample (s : Sampler γ α) :
    InStep (Draw.sample s) (Draw.sample s) fun a b => a = b ∧ ∃ g, (s g).1 = a :=
  fun g => ⟨(s g).1, (s g).1, (s g).2, rfl, rfl, rfl, g, rfl⟩

/-- Less may be said of the results. -/
theorem imp {R' : α → β → Prop} (hx : InStep x y R) (h : ∀ a b, R a b → R' a b) :
    InStep x y R' := by
  intro g
  rcases hx g with ⟨a, b, g', hrun, hrun', hab⟩
  exact ⟨a, b, g', hrun, hrun', h a b hab⟩

/-- Both go on in step from whatever results they have reached. -/
theorem bind {f : α → Draw γ α'} {f' : β → Draw γ β'} (hx : InStep x y R)
    (hf : ∀ a b, R a b → InStep (f a) (f' b) Q) : InStep (x >>= f) (y >>= f') Q := by
  intro g
  rcases hx g with ⟨a, b, g₁, hrun, hrun', hab⟩
  rcases hf a b hab g₁ with ⟨c, d, g₂, hrest, hrest', hcd⟩
  exact ⟨c, d, g₂, by simp [hrun, hrest], by simp [hrun', hrest'], hcd⟩

/-- Whatever is made of the results without a draw. -/
theorem map (f : α → α') (f' : β → β') (hx : InStep x y R) (hf : ∀ a b, R a b → Q (f a) (f' b)) :
    InStep (do return f (← x)) (do return f' (← y)) Q :=
  hx.bind fun a b hab => .pure (hf a b hab)

end InStep

/-- Computations that follow one sampler run in step. -/
theorem Follows.inStep {δ : Type} {x : Draw γ α} {y : Draw γ β} {s : Sampler γ δ}
    {P : α → δ → Prop} {Q : β → δ → Prop} (hx : x.Follows s P) (hy : y.Follows s Q) :
    InStep x y fun a b => ∃ v, P a v ∧ Q b v := by
  intro g
  rcases hx g with ⟨a, hrun, ha⟩
  rcases hy g with ⟨b, hrun', hb⟩
  exact ⟨a, b, (s g).2, hrun, hrun', (s g).1, ha, hb⟩

end TorusFHE.Draw
