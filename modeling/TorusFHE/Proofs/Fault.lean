import Mathlib.Data.List.Forall2
import Mathlib.Tactic.Ring
import TorusFHE.Fault

/-!
# Outcomes of computations that may fail

Equations for sequences of computations in `Except`, for such a computation on every entry of a
list, and the one that says when two lists can be combined entry by entry.  Some facts about the
positions of lists follow, for results that are described position by position.
-/

namespace TorusFHE

section Except

variable {ε α β : Type}

@[simp] theorem ok_bind (a : α) (f : α → Except ε β) : (Except.ok a >>= f) = f a := rfl

@[simp] theorem error_bind (e : ε) (f : α → Except ε β) :
    ((Except.error e : Except ε α) >>= f) = .error e := rfl

@[simp] theorem pure_eq_ok (a : α) : (pure a : Except ε α) = .ok a := rfl

/-- A sequence succeeds exactly if both of its parts do. -/
theorem bind_eq_ok_iff {x : Except ε α} {f : α → Except ε β} {b : β} :
    (x >>= f) = .ok b ↔ ∃ a, x = .ok a ∧ f a = .ok b := by
  constructor
  · intro h
    cases x with
    | error e => simp at h
    | ok a => exact ⟨a, rfl, h⟩
  · rintro ⟨a, rfl, hf⟩
    exact hf

/-- The same where the first part has nothing to say but that it succeeds. -/
theorem check_bind_eq_ok_iff {x : Except ε Unit} {f : Unit → Except ε β} {b : β} :
    (x >>= f) = .ok b ↔ x = .ok () ∧ f () = .ok b := by
  rw [bind_eq_ok_iff]
  exact ⟨fun ⟨_, h⟩ => h, fun h => ⟨(), h⟩⟩

/-- A sequence that starts with a check fails with the error of the check, or passes it and fails
later. -/
theorem check_bind_eq_error_iff {x : Except ε Unit} {f : Unit → Except ε β} {e : ε} :
    (x >>= f) = .error e ↔ x = .error e ∨ x = .ok () ∧ f () = .error e := by
  cases x <;> simp

/-- Whether a check succeeds can be computed. -/
theorem toBool_eq_true_iff {x : Except ε Unit} : x.toBool = true ↔ x = .ok () := by
  cases x with
  | error e => exact ⟨nofun, nofun⟩
  | ok u => exact ⟨fun _ => rfl, fun _ => rfl⟩

/-- A guard that fails on a condition is passed where the condition does not hold. -/
theorem ite_error_eq_ok_iff {c : Prop} [Decidable c] {e : ε} {x : Except ε α} {a : α} :
    (if c then .error e else x) = .ok a ↔ ¬c ∧ x = .ok a := by
  by_cases h : c <;> simp [h]

variable {ε' : Type}

@[simp] theorem mapError_ok (f : ε → ε') (a : α) :
    (Except.ok a).mapError f = .ok a := rfl

@[simp] theorem mapError_error (f : ε → ε') (e : ε) :
    (Except.error e : Except ε α).mapError f = .error (f e) := rfl

/-- Sending errors elsewhere does not touch success. -/
@[simp] theorem mapError_eq_ok_iff {f : ε → ε'} {x : Except ε α} {a : α} :
    x.mapError f = .ok a ↔ x = .ok a := by
  cases x <;> simp

theorem mapError_eq_error_iff {f : ε → ε'} {x : Except ε α} {e : ε'} :
    x.mapError f = .error e ↔ ∃ cause, x = .error cause ∧ e = f cause := by
  cases x <;> simp [eq_comm]

end Except

/-! ## Lists -/

/-- A computation that succeeds on every entry of a list, with results of a certain kind, succeeds
on the list, with as many of them. -/
theorem exists_mapM_eq_ok {ε α β : Type} {f : α → Except ε β} {P : β → Prop} {l : List α}
    (h : ∀ a ∈ l, ∃ b, f a = .ok b ∧ P b) :
    ∃ bs, l.mapM f = .ok bs ∧ bs.length = l.length ∧ ∀ b ∈ bs, P b := by
  induction l with
  | nil => exact ⟨[], rfl, rfl, by simp⟩
  | cons a l ih =>
    rcases h a (by simp) with ⟨b, hb, hP⟩
    rcases ih (fun a' ha' => h a' (by simp [ha'])) with ⟨bs, hbs, hlen, hall⟩
    refine ⟨b :: bs, ?_, by simp [hlen], ?_⟩
    · simp [List.mapM_cons, hb, hbs]
    · intro b' hb'
      rcases List.mem_cons.1 hb' with rfl | hb'
      · exact hP
      · exact hall b' hb'

/-- The same where the results are known. -/
theorem mapM_eq_ok {ε α β : Type} {f : α → Except ε β} {h : α → β} {l : List α}
    (hf : ∀ a ∈ l, f a = .ok (h a)) : l.mapM f = .ok (l.map h) := by
  induction l with
  | nil => rfl
  | cons a l ih =>
    have hrest := ih fun a' ha' => hf a' (by simp [ha'])
    simp [List.mapM_cons, hf a (by simp), hrest]

/-- A list passes a check exactly if every entry does. -/
theorem forM_eq_ok_iff {ε α : Type} {l : List α} {f : α → Except ε Unit} :
    l.forM f = .ok () ↔ ∀ a ∈ l, f a = .ok () := by
  induction l with
  | nil => simp
  | cons a l ih =>
    have hcons : (a :: l).forM f = (f a >>= fun _ => l.forM f) := rfl
    rw [hcons, check_bind_eq_ok_iff, ih, List.forall_mem_cons]

/-- A list is refused exactly if a first entry of it is, and for the same reason. -/
theorem forM_eq_error_iff {ε α : Type} {l : List α} {f : α → Except ε Unit} {e : ε} :
    l.forM f = .error e ↔
      ∃ before a after, l = before ++ a :: after ∧ (∀ b ∈ before, f b = .ok ()) ∧
        f a = .error e := by
  induction l with
  | nil => simp
  | cons a l ih =>
    have hcons : (a :: l).forM f = (f a >>= fun _ => l.forM f) := rfl
    rw [hcons, check_bind_eq_error_iff, ih]
    constructor
    · rintro (ha | ⟨ha, before, b, after, rfl, hbefore, hb⟩)
      · exact ⟨[], a, l, rfl, by simp, ha⟩
      · exact ⟨a :: before, b, after, rfl, List.forall_mem_cons.2 ⟨ha, hbefore⟩, hb⟩
    · rintro ⟨before, b, after, hsplit, hbefore, hb⟩
      -- The refused entry is the head, or the head stands before it and is accepted.
      rcases List.cons_eq_append_iff.1 hsplit with ⟨rfl, hhead⟩ | ⟨rest, rfl, hrest⟩
      · cases hhead
        exact .inl hb
      · rcases List.forall_mem_cons.1 hbefore with ⟨ha, hbefore⟩
        exact .inr ⟨ha, rest, b, after, hrest, hbefore, hb⟩

theorem forall_mem_concat {α : Type} {P : α → Prop} {l : List α} {a : α} (hl : ∀ x ∈ l, P x)
    (ha : P a) : ∀ x ∈ l ++ [a], P x :=
  List.forall_mem_append.2 ⟨hl, List.forall_mem_singleton.2 ha⟩

/-- Lists are combined exactly if their lengths agree. -/
theorem zipExact_eq_ok_iff {α β γ : Type} {f : α → β → γ} {l : List α} {r : List β} {z : List γ} :
    zipExact f l r = .ok z ↔ l.length = r.length ∧ z = List.zipWith f l r := by
  by_cases h : l.length = r.length
  · simp [zipExact, h, eq_comm]
  · simp [zipExact, h]

theorem zipExact_of_length {α β γ : Type} {f : α → β → γ} {l : List α} {r : List β}
    (h : l.length = r.length) : zipExact f l r = .ok (List.zipWith f l r) :=
  zipExact_eq_ok_iff.2 ⟨h, rfl⟩

/-! ## Positions -/

theorem getElem?_eq_some_getD {α : Type} {l : List α} {i : Nat} (hi : i < l.length) (d : α) :
    l[i]? = some (l.getD i d) := by
  simp [List.getD_eq_getElem?_getD, hi]

/-- Lists that are related entry by entry have a partner for each entry. -/
theorem exists_mem_of_forall₂ {α β : Type} {R : α → β → Prop} {l : List α} {r : List β}
    (h : List.Forall₂ R l r) {a : α} (ha : a ∈ l) : ∃ b ∈ r, R a b := by
  induction h with
  | nil => simp at ha
  | cons hhead _ ih =>
    rcases List.mem_cons.1 ha with rfl | ha
    · exact ⟨_, by simp, hhead⟩
    · rcases ih ha with ⟨b, hb, hR⟩
      exact ⟨b, by simp [hb], hR⟩

/-- Lists that are related entry by entry are so at each position. -/
theorem exists_getElem?_of_forall₂ {α β : Type} {R : α → β → Prop} {l : List α} {r : List β}
    (h : List.Forall₂ R l r) {i : Nat} {b : β} (hb : r[i]? = some b) :
    ∃ a, l[i]? = some a ∧ R a b := by
  induction h generalizing i with
  | nil => simp at hb
  | cons hhead _ ih =>
    cases i with
    | zero =>
      cases hb
      exact ⟨_, rfl, hhead⟩
    | succ i => exact ih hb

/-- A list of several blocks of `size` entries starts with one. -/
theorem exists_block {α : Type} {l : List α} {count size : Nat}
    (h : l.length = (count + 1) * size) :
    ∃ block rest, l = block ++ rest ∧ block.length = size ∧ rest.length = count * size := by
  rw [Nat.succ_mul] at h
  refine ⟨l.take size, l.drop size, (List.take_append_drop _ _).symm, ?_, ?_⟩
  · rw [List.length_take]
    omega
  · rw [List.length_drop]
    omega

/-- In a list made of blocks of `d` entries, entry `j` of block `i` is entry `i * d + j`. -/
theorem getElem?_flatMap_of_length {α β : Type} {f : α → List β} {l : List α} {d : Nat}
    (hf : ∀ a ∈ l, (f a).length = d) (i : Nat) {j : Nat} (hj : j < d) :
    (l.flatMap f)[i * d + j]? = l[i]?.bind fun a => (f a)[j]? := by
  induction l generalizing i with
  | nil => simp
  | cons a l ih =>
    have hlen : (f a).length = d := hf a (by simp)
    rw [List.flatMap_cons]
    cases i with
    | zero => simp [List.getElem?_append_left, hlen, hj]
    | succ i =>
      have hpast : (i + 1) * d + j = (f a).length + (i * d + j) := by
        rw [hlen]
        ring
      rw [hpast, List.getElem?_append_right (Nat.le_add_right _ _), Nat.add_sub_cancel_left,
        ih (fun a' ha' => hf a' (by simp [ha']))]
      rfl

end TorusFHE
