import TorusFHE.Proofs.Fault
import TorusFHE.Random.Generator

/-!
# Runs of random computations

Equations for a random computation at a state of its generator, and for a sampler that is repeated.

Most computations draw as a plain sampler does, and what they return is known from the value of that
sampler.  `Draw.Follows` says so, from every state, and in particular that the computation succeeds;
`Draw.Makes` says only that it succeeds, with a result of a certain kind:

* `Draw.Follows.mapM`: a computation for each entry of a list follows the repeated sampler;
* `Draw.mapM_sample`: the samplers of equal values, one after the other.
-/

namespace TorusFHE

variable {γ α β : Type}

namespace Draw

@[simp] theorem pure_apply (a : α) (g : γ) : (pure a : Draw γ α) g = .ok (a, g) := rfl

@[simp] theorem bind_apply (x : Draw γ α) (f : α → Draw γ β) (g : γ) :
    (x >>= f) g = (x g >>= fun r => f r.1 r.2) := rfl

@[simp] theorem map_apply (f : α → β) (x : Draw γ α) (g : γ) :
    (f <$> x) g = (x g >>= fun r => .ok (f r.1, r.2)) := rfl

@[simp] theorem sample_apply (s : Sampler γ α) (g : γ) : sample s g = .ok (s g) := rfl

@[simp] theorem lift_ok (a : α) (g : γ) : lift (.ok a) g = .ok (a, g) := rfl

theorem lift_apply_eq_ok_iff {x : Except Fault α} {g : γ} {r : α × γ} :
    lift x g = .ok r ↔ x = .ok r.1 ∧ r.2 = g := by
  cases x with
  | error e => simp [lift, Except.map]
  | ok a =>
    obtain ⟨b, g'⟩ := r
    simp [eq_comm]

/-- A sequence of draws succeeds exactly if its first part does and the second goes on from
there. -/
theorem bind_apply_eq_ok_iff {x : Draw γ α} {f : α → Draw γ β} {g : γ} {r : β × γ} :
    (x >>= f) g = .ok r ↔ ∃ a g₁, x g = .ok (a, g₁) ∧ f a g₁ = .ok r := by
  rw [bind_apply, bind_eq_ok_iff]
  exact Prod.exists

end Draw

namespace Sampler

variable (s : Sampler γ α)

theorem repeated_go (n : Nat) (acc : List α) (g : γ) :
    repeated.go s n acc g = (acc.reverse ++ (s.repeated n g).1, (s.repeated n g).2) := by
  induction n generalizing acc g with
  | zero => simp [repeated, repeated.go]
  | succ n ih =>
    have hone : s.repeated (n + 1) g = repeated.go s n [(s g).1] (s g).2 := rfl
    have hstep : repeated.go s (n + 1) acc g = repeated.go s n ((s g).1 :: acc) (s g).2 := rfl
    rw [hone, hstep, ih, ih]
    simp

@[simp] theorem repeated_zero (g : γ) : s.repeated 0 g = ([], g) := rfl

/-- The first of several values is drawn before all others. -/
theorem repeated_succ (n : Nat) (g : γ) :
    s.repeated (n + 1) g =
      ((s g).1 :: (s.repeated n (s g).2).1, (s.repeated n (s g).2).2) := by
  have hone : s.repeated (n + 1) g = repeated.go s n [(s g).1] (s g).2 := rfl
  rw [hone, repeated_go]
  rfl

/-- What holds of every value of a sampler holds of all values drawn in a row. -/
theorem forall_mem_repeated {P : α → Prop} (h : ∀ g, P (s g).1) (n : Nat) (g : γ) :
    ∀ a ∈ (s.repeated n g).1, P a := by
  induction n generalizing g with
  | zero => simp
  | succ n ih =>
    rw [repeated_succ]
    exact List.forall_mem_cons.2 ⟨h g, ih (s g).2⟩

@[simp] theorem length_repeated (n : Nat) (g : γ) : (s.repeated n g).1.length = n := by
  induction n generalizing g with
  | zero => rfl
  | succ n ih => simp [repeated_succ, ih]

/-- The last of several values is drawn behind all others. -/
theorem repeated_succ_snd (n : Nat) (g : γ) :
    (s.repeated (n + 1) g).2 = (s (s.repeated n g).2).2 := by
  induction n generalizing g with
  | zero => rfl
  | succ n ih =>
    rw [repeated_succ, ih, repeated_succ s n g]

/-- Several values in a row are the first of them and then the others. -/
theorem repeated_add (m n : Nat) (g : γ) :
    s.repeated (m + n) g =
      ((s.repeated m g).1 ++ (s.repeated n (s.repeated m g).2).1,
        (s.repeated n (s.repeated m g).2).2) := by
  induction m generalizing g with
  | zero => simp
  | succ m ih => rw [Nat.add_right_comm, repeated_succ, ih, repeated_succ, List.cons_append]

/-- Drawing blocks of `n` values is drawing all their values in a row. -/
theorem repeated_blocks {n : Nat} {block : Sampler γ β} {f : β → List α}
    (h : ∀ g, (f (block g).1, (block g).2) = s.repeated n g) (k : Nat) (g : γ) :
    ((block.repeated k g).1.flatMap f, (block.repeated k g).2) = s.repeated (k * n) g := by
  induction k generalizing g with
  | zero => simp
  | succ k ih =>
    have hlen : (k + 1) * n = n + k * n := by ring
    rw [hlen, repeated_add s, ← h, ← ih, repeated_succ, List.flatMap_cons]

/-- Value `i` is drawn from the state that the `i` values before it leave. -/
theorem getElem?_repeated {n i : Nat} (hi : i < n) (g : γ) :
    (s.repeated n g).1[i]? = some (s (s.repeated i g).2).1 := by
  induction n generalizing i g with
  | zero => omega
  | succ n ih =>
    rw [repeated_succ]
    cases i with
    | zero => rfl
    | succ i => rw [List.getElem?_cons_succ, ih (Nat.lt_of_succ_lt_succ hi), repeated_succ]

end Sampler

namespace Draw

/-- Drawing a value several times is drawing it repeatedly. -/
theorem mapM_sample (s : Sampler γ α) (n : Nat) :
    ((List.replicate n ()).mapM fun _ => sample s) = sample (s.repeated n) := by
  funext g
  induction n generalizing g with
  | zero => rfl
  | succ n ih => simp [List.replicate_succ, List.mapM_cons, ih, Sampler.repeated_succ]

/-- From every state, the computation succeeds, and its result is of a certain kind. -/
def Makes (x : Draw γ α) (P : α → Prop) : Prop :=
  ∀ g, ∃ a g', x g = .ok (a, g') ∧ P a

namespace Makes

variable {P : α → Prop} {Q : β → Prop}

theorem pure {a : α} (h : P a) : (Pure.pure a : Draw γ α).Makes P :=
  fun g => ⟨a, g, rfl, h⟩

/-- A computation can go on from whatever the first part makes. -/
theorem bind {x : Draw γ α} {f : α → Draw γ β} (hx : x.Makes P)
    (hf : ∀ a, P a → (f a).Makes Q) : (x >>= f).Makes Q := by
  intro g
  rcases hx g with ⟨a, g₁, hrun, ha⟩
  rcases hf a ha g₁ with ⟨b, g₂, hrest, hb⟩
  exact ⟨b, g₂, by simp [hrun, hrest], hb⟩

/-- Whatever is made of the result without a draw is of the kind that this makes. -/
theorem map {x : Draw γ α} (f : α → β) (hx : x.Makes P) (hf : ∀ a, P a → Q (f a)) :
    Makes (do return f (← x)) Q :=
  hx.bind fun a ha => .pure (hf a ha)

end Makes

/-- From every state, the computation succeeds, leaves the state that the sampler leaves, and its
result stands in a relation to the value of the sampler. -/
def Follows (x : Draw γ α) (s : Sampler γ β) (R : α → β → Prop) : Prop :=
  ∀ g, ∃ a, x g = .ok (a, (s g).2) ∧ R a (s g).1

namespace Follows

variable {ι : Type} {s : Sampler γ β} {R : α → β → Prop}

/-- Whatever is made of the result without a draw follows the same sampler. -/
theorem map {x : Draw γ α} {α' : Type} {R' : α' → β → Prop} (f : α → α') (h : x.Follows s R)
    (hR : ∀ a b, R a b → R' (f a) b) : Follows (do return f (← x)) s R' := by
  intro g
  rcases h g with ⟨a, hrun, ha⟩
  exact ⟨f a, by simp [hrun], hR a _ ha⟩

/-- The same computation for each entry of a list follows the sampler as often as there are
entries; result, entry and value of one position are related. -/
theorem mapM {f : ι → Draw γ α} {R : ι → α → β → Prop} {l : List ι}
    (h : ∀ i ∈ l, (f i).Follows s (R i)) :
    (l.mapM f).Follows (s.repeated l.length) fun as bs =>
      List.Forall₂ (fun a p => R p.1 a p.2) as (l.zip bs) := by
  induction l with
  | nil => exact fun g => ⟨[], rfl, .nil⟩
  | cons i l ih =>
    intro g
    rcases h i (by simp) g with ⟨a, hrun, ha⟩
    -- The rest of the list starts from the state that its first entry leaves.
    rcases ih (fun i' hi' => h i' (by simp [hi'])) (s g).2 with ⟨as, hruns, has⟩
    refine ⟨a :: as, ?_, ?_⟩
    · simp [List.mapM_cons, hrun, hruns, Sampler.repeated_succ]
    · rw [List.length_cons, Sampler.repeated_succ]
      exact List.Forall₂.cons ha has

end Follows

end Draw

end TorusFHE
