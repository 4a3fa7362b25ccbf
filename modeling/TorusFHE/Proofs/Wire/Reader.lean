import Mathlib.Tactic.Ring
import TorusFHE.Proofs.Fault
import TorusFHE.Wire.Reader

/-!
# Laws of readers

A reader undoes a writer if it succeeds exactly on sources that start with what the writer writes,
returns the value that was written and leaves the rest of the source, limit included.  Where it
does not succeed it was stopped by the limit, or by the end of bytes that the limit would have gone
beyond; it has no other complaint.

* `Reader.Undoes`: the relation between readers and writers;
* `Reader.Undoes.field`: the bytes of a number, from which all else is made;
* `Reader.Undoes.bind`: one reader after the other, where the second may depend on the first.
-/

namespace TorusFHE

namespace ByteSource

/-- The source with more bytes in front, all of which may be read. -/
def prepend (s : ByteSource) (front : List UInt8) : ByteSource :=
  ⟨front ++ s.bytes, s.limit.map (front.length + ·)⟩

@[simp] theorem prepend_nil (s : ByteSource) : s.prepend [] = s := by
  simp [prepend]

theorem prepend_append (s : ByteSource) (front back : List UInt8) :
    s.prepend (front ++ back) = (s.prepend back).prepend front := by
  cases hlimit : s.limit with
  | none => simp [prepend, hlimit]
  | some left => simp [prepend, hlimit, Nat.add_assoc]

theorem prepend_whole (front rest : List UInt8) :
    (whole rest).prepend front = whole (front ++ rest) := by
  simp [prepend, whole]

/-- Reading stops at the limit, or at the end of the bytes if the limit lies behind it. -/
def Stops (s : ByteSource) (e : ReadError) : Prop :=
  e = .sizeLimit ∨ e = .unexpectedEnd ∧ ∀ left ∈ s.limit, s.bytes.length < left

/-- What stops a reader behind some bytes stops it in front of them. -/
theorem Stops.prepend {s : ByteSource} {e : ReadError} (h : s.Stops e) (front : List UInt8) :
    (s.prepend front).Stops e := by
  rcases h with rfl | ⟨rfl, hshort⟩
  · exact .inl rfl
  · refine .inr ⟨rfl, ?_⟩
    intro left hleft
    obtain ⟨behind, hbehind, rfl⟩ := Option.map_eq_some_iff.1 hleft
    have hlt : s.bytes.length < behind := hshort behind hbehind
    simpa [ByteSource.prepend] using hlt

/-- A source that may be read to its end and no further is never read to its end. -/
theorem Stops.eq_sizeLimit {bs : List UInt8} {e : ReadError} (h : (whole bs).Stops e) :
    e = .sizeLimit := by
  rcases h with he | ⟨-, hshort⟩
  · exact he
  · exact absurd (hshort bs.length rfl) (Nat.lt_irrefl _)

end ByteSource

/-! ## Numbers as bytes -/

@[simp] theorem length_numberBytes (width n : Nat) : (numberBytes width n).length = width := by
  induction width generalizing n with
  | zero => rfl
  | succ width ih => simp [numberBytes, ih]

theorem numberOfBytes_numberBytes {width n : Nat} (h : n < 256 ^ width) :
    numberOfBytes (numberBytes width n) = n := by
  induction width generalizing n with
  | zero =>
    have hn : n = 0 := by simpa using h
    simp [numberBytes, numberOfBytes, hn]
  | succ width ih =>
    have hhigh : n / 256 < 256 ^ width := by
      rw [pow_succ] at h
      omega
    have hsplit : n % 256 + 256 * (n / 256) = n := Nat.mod_add_div n 256
    simp [numberBytes, numberOfBytes, ih hhigh, hsplit]

theorem numberOfBytes_lt (bs : List UInt8) : numberOfBytes bs < 256 ^ bs.length := by
  induction bs with
  | nil => simp [numberOfBytes]
  | cons b bs ih =>
    have hb : b.toNat < 256 := b.toNat_lt
    rw [numberOfBytes, List.length_cons, pow_succ]
    omega

theorem numberBytes_numberOfBytes (bs : List UInt8) :
    numberBytes bs.length (numberOfBytes bs) = bs := by
  induction bs with
  | nil => rfl
  | cons b bs ih =>
    -- The first byte is the low byte of the number, the others are those of its quotient.
    have hb : b.toNat < 256 := b.toNat_lt
    have hlow : UInt8.ofNat (b.toNat + 256 * numberOfBytes bs) = b := by
      apply UInt8.toNat_inj.1
      rw [UInt8.toNat_ofNat']
      omega
    have hrest : (b.toNat + 256 * numberOfBytes bs) / 256 = numberOfBytes bs := by omega
    rw [numberOfBytes, List.length_cons, numberBytes, hlow, hrest, ih]

theorem splitFront_eq_some_iff {count : Nat} {bs front rest : List UInt8} :
    splitFront count bs = some (front, rest) ↔ front.length = count ∧ bs = front ++ rest := by
  induction count generalizing bs front with
  | zero =>
    rw [List.length_eq_zero_iff, splitFront, Option.some.injEq, Prod.mk.injEq, eq_comm]
    refine and_congr_right ?_
    rintro rfl
    rfl
  | succ count ih =>
    cases bs with
    | nil =>
      cases front with
      | nil => simp [splitFront]
      | cons b front => simp [splitFront]
    | cons b bs =>
      have hstep : splitFront (count + 1) (b :: bs) = some (front, rest) ↔
          ∃ tail, splitFront count bs = some (tail, rest) ∧ b :: tail = front := by
        simp [splitFront, Option.bind_eq_some_iff]
      rw [hstep]
      constructor
      · rintro ⟨tail, htail, rfl⟩
        rcases ih.1 htail with ⟨rfl, rfl⟩
        exact ⟨rfl, rfl⟩
      · rintro ⟨hlength, happend⟩
        cases front with
        | nil => simp at hlength
        | cons b' tail =>
          obtain ⟨rfl, rfl⟩ : b = b' ∧ bs = tail ++ rest := by simpa using happend
          exact ⟨tail, ih.2 ⟨by simpa using hlength, rfl⟩, rfl⟩

theorem splitFront_eq_none_iff {count : Nat} {bs : List UInt8} :
    splitFront count bs = none ↔ bs.length < count := by
  constructor
  · intro h
    by_contra hlong
    have hsome : splitFront count bs = some (bs.take count, bs.drop count) :=
      splitFront_eq_some_iff.2 ⟨by simpa using Nat.not_lt.1 hlong, by simp⟩
    simp [h] at hsome
  · intro hshort
    cases hsplit : splitFront count bs with
    | none => rfl
    | some r =>
      rcases splitFront_eq_some_iff.1 hsplit with ⟨hlength, rfl⟩
      rw [List.length_append] at hshort
      omega

namespace Reader

variable {α β : Type}

/-! ## Runs -/

theorem run_bind_eq_ok_iff {x : Reader α} {f : α → Reader β} {s : ByteSource} {r : β × ByteSource} :
    (x >>= f).run s = .ok r ↔ ∃ a s₁, x.run s = .ok (a, s₁) ∧ (f a).run s₁ = .ok r := by
  rw [StateT.run_bind, bind_eq_ok_iff]
  exact Prod.exists

theorem run_bind_eq_error_iff {x : Reader α} {f : α → Reader β} {s : ByteSource} {e : ReadError} :
    (x >>= f).run s = .error e ↔
      x.run s = .error e ∨ ∃ a s₁, x.run s = .ok (a, s₁) ∧ (f a).run s₁ = .error e := by
  rw [StateT.run_bind]
  cases x.run s with
  | error e' => simp
  | ok r =>
    obtain ⟨a, s₁⟩ := r
    simp

theorem run_charge_eq_ok_iff {count : Nat} {s s' : ByteSource} :
    (charge count).run s = .ok ((), s') ↔ s = ⟨s'.bytes, s'.limit.map (count + ·)⟩ := by
  rcases s with ⟨bs, limit⟩
  rcases s' with ⟨bs', limit'⟩
  cases limit with
  | none => simp [charge, StateT.run, eq_comm]
  | some left =>
    cases limit' with
    | none => by_cases hle : count ≤ left <;> simp [charge, StateT.run, hle]
    | some left' =>
      by_cases hle : count ≤ left
      · have hleft : left - count = left' ↔ left = count + left' := by omega
        simp [charge, StateT.run, hle, hleft]
      · have hne : left ≠ count + left' := by omega
        simp [charge, StateT.run, hle, hne]

theorem run_take_eq_ok_iff {count : Nat} {front : List UInt8} {s s' : ByteSource} :
    (take count).run s = .ok (front, s') ↔
      front.length = count ∧ s = ⟨front ++ s'.bytes, s'.limit⟩ := by
  have hrun : (take count).run s = .ok (front, s') ↔
      splitFront count s.bytes = some (front, s'.bytes) ∧ s.limit = s'.limit := by
    rcases s with ⟨bs, limit⟩
    rcases s' with ⟨bs', limit'⟩
    cases hsplit : splitFront count bs with
    | none => simp [take, StateT.run, hsplit]
    | some r =>
      obtain ⟨front', rest⟩ := r
      simp [take, StateT.run, hsplit, and_assoc]
  rcases s with ⟨bs, limit⟩
  rw [hrun, splitFront_eq_some_iff, and_assoc, ByteSource.mk.injEq]

/-- The bytes of a number are read exactly where they stand. -/
theorem run_field_eq_ok_iff {width : Nat} {bs : List UInt8} {s s' : ByteSource} :
    (field width).run s = .ok (bs, s') ↔ bs.length = width ∧ s = s'.prepend bs := by
  rw [field, run_bind_eq_ok_iff]
  constructor
  · rintro ⟨⟨⟩, s₁, hcharge, htake⟩
    obtain ⟨rfl, rfl⟩ := run_take_eq_ok_iff.1 htake
    exact ⟨rfl, run_charge_eq_ok_iff.1 hcharge⟩
  · rintro ⟨rfl, rfl⟩
    exact ⟨(), ⟨bs ++ s'.bytes, s'.limit⟩, run_charge_eq_ok_iff.2 rfl,
      run_take_eq_ok_iff.2 ⟨rfl, rfl⟩⟩

theorem stops_of_run_charge {count : Nat} {s : ByteSource} {e : ReadError}
    (h : (charge count).run s = .error e) : s.Stops e := by
  rcases s with ⟨bs, limit⟩
  cases limit with
  | none => simp [charge, StateT.run] at h
  | some left =>
    by_cases hle : count ≤ left
    · simp [charge, StateT.run, hle] at h
    · left
      simpa [charge, StateT.run, hle, eq_comm] using h

theorem eq_unexpectedEnd_of_run_take {count : Nat} {s : ByteSource} {e : ReadError}
    (h : (take count).run s = .error e) : e = .unexpectedEnd ∧ s.bytes.length < count := by
  cases hsplit : splitFront count s.bytes with
  | none =>
    refine ⟨?_, splitFront_eq_none_iff.1 hsplit⟩
    simpa [take, StateT.run, hsplit, eq_comm] using h
  | some r => simp [take, StateT.run, hsplit] at h

/-- The limit is looked at before the bytes are: what stops a number behind its charge is that the
limit covers more than there is. -/
theorem stops_of_run_field {width : Nat} {s : ByteSource} {e : ReadError}
    (h : (field width).run s = .error e) : s.Stops e := by
  rcases run_bind_eq_error_iff.1 h with hcharge | ⟨⟨⟩, s₁, hcharge, htake⟩
  · exact stops_of_run_charge hcharge
  · rcases eq_unexpectedEnd_of_run_take htake with ⟨rfl, hshort⟩
    obtain rfl := run_charge_eq_ok_iff.1 hcharge
    refine .inr ⟨rfl, ?_⟩
    intro left hleft
    obtain ⟨behind, -, rfl⟩ := Option.map_eq_some_iff.1 hleft
    exact Nat.lt_of_lt_of_le hshort (Nat.le_add_right _ _)

/-! ## Readers and writers -/

/-- The reader succeeds on what the writer writes of the values that fit, and on nothing else; it
fails only by being stopped. -/
structure Undoes (read : Reader α) (write : α → List UInt8) (fits : α → Prop) : Prop where
  run_eq_ok_iff : ∀ {a : α} {s s' : ByteSource},
    read.run s = .ok (a, s') ↔ fits a ∧ s = s'.prepend (write a)
  stops : ∀ {s : ByteSource} {e : ReadError}, read.run s = .error e → s.Stops e

namespace Undoes

variable {read : Reader β} {write : β → List UInt8} {fits : β → Prop}

theorem field (width : Nat) : Undoes (Reader.field width) id fun bs => bs.length = width where
  run_eq_ok_iff := run_field_eq_ok_iff
  stops := stops_of_run_field

/-- Reading nothing. -/
theorem pure {a : α} {fits : α → Prop} (h : ∀ a', fits a' ↔ a' = a) :
    Undoes (Pure.pure a) (fun _ => []) fits where
  run_eq_ok_iff {a' s s'} := by
    rw [StateT.run_pure, h, ByteSource.prepend_nil]
    simp [eq_comm]
  stops {s e} he := by simp at he

/-- One reader after the other.  The second may depend on what the first has read, which is a part
of the value. -/
theorem bind (h : Undoes read write fits) {next : β → Reader α} {part : α → β}
    {writeNext : α → List UInt8} {fitsNext : α → Prop}
    (hnext : ∀ b, fits b → Undoes (next b) writeNext fun a => part a = b ∧ fitsNext a) :
    Undoes (read >>= next) (fun a => write (part a) ++ writeNext a)
      fun a => fits (part a) ∧ fitsNext a where
  run_eq_ok_iff {a s s'} := by
    rw [run_bind_eq_ok_iff, ByteSource.prepend_append]
    constructor
    · rintro ⟨b, s₁, hread, hrest⟩
      obtain ⟨hb, rfl⟩ := h.run_eq_ok_iff.1 hread
      obtain ⟨⟨rfl, ha⟩, rfl⟩ := (hnext b hb).run_eq_ok_iff.1 hrest
      exact ⟨⟨hb, ha⟩, rfl⟩
    · rintro ⟨⟨hb, ha⟩, rfl⟩
      exact ⟨part a, s'.prepend (writeNext a), h.run_eq_ok_iff.2 ⟨hb, rfl⟩,
        (hnext _ hb).run_eq_ok_iff.2 ⟨⟨rfl, ha⟩, rfl⟩⟩
  stops {s e} he := by
    rcases run_bind_eq_error_iff.1 he with hread | ⟨b, s₁, hread, hrest⟩
    · exact h.stops hread
    · -- The second reader was stopped behind the bytes of the first.
      obtain ⟨hb, rfl⟩ := h.run_eq_ok_iff.1 hread
      exact ((hnext b hb).stops hrest).prepend (write b)

/-- Values that correspond to the values of a reader. -/
theorem map (h : Undoes read write fits) {part : α → β} {make : β → α} {fits' : α → Prop}
    (make_part : ∀ a, fits' a → fits (part a) ∧ make (part a) = a)
    (part_make : ∀ b, fits b → fits' (make b) ∧ part (make b) = b) :
    Undoes (make <$> read) (fun a => write (part a)) fits' where
  run_eq_ok_iff {a s s'} := by
    rw [map_eq_pure_bind, run_bind_eq_ok_iff]
    constructor
    · rintro ⟨b, s₁, hread, hmake⟩
      obtain ⟨rfl, rfl⟩ : make b = a ∧ s₁ = s' := by simpa using hmake
      obtain ⟨hb, rfl⟩ := h.run_eq_ok_iff.1 hread
      rcases part_make b hb with ⟨ha, hpart⟩
      exact ⟨ha, by rw [hpart]⟩
    · rintro ⟨ha, rfl⟩
      rcases make_part a ha with ⟨hb, hmake⟩
      exact ⟨part a, s', h.run_eq_ok_iff.2 ⟨hb, rfl⟩, by simp [hmake]⟩
  stops {s e} he := by
    rw [map_eq_pure_bind] at he
    rcases run_bind_eq_error_iff.1 he with hread | ⟨b, s₁, -, hmake⟩
    · exact h.stops hread
    · simp at hmake

/-! ## Numbers -/

theorem number (width : Nat) :
    Undoes (Reader.number width) (numberBytes width) fun n => n < 256 ^ width := by
  refine (field width).map ?_ ?_
  · intro n hn
    exact ⟨length_numberBytes width n, numberOfBytes_numberBytes hn⟩
  · rintro bs rfl
    exact ⟨numberOfBytes_lt bs, numberBytes_numberOfBytes bs⟩

/-- Words that are the numbers of a width. -/
theorem word {width : Nat} {toNat : α → Nat} {ofNat : Nat → α} (hlt : ∀ w, toNat w < 256 ^ width)
    (ofNat_toNat : ∀ w, ofNat (toNat w) = w)
    (toNat_ofNat : ∀ n < 256 ^ width, toNat (ofNat n) = n) :
    Undoes (ofNat <$> Reader.number width) (fun w => numberBytes width (toNat w))
      fun _ => True :=
  (number width).map (fun w _ => ⟨hlt w, ofNat_toNat w⟩) fun n hn => ⟨trivial, toNat_ofNat n hn⟩

/-- A length of eight bytes is never too large. -/
theorem length : Undoes Reader.length (numberBytes 8) fun n => n < 2 ^ 64 := by
  have hchecked : Undoes Reader.length (fun n => numberBytes 8 (id n) ++ [])
      fun n => id n < 256 ^ 8 ∧ True := by
    refine (number 8).bind fun n hn => ?_
    have hle : n ≤ ReadError.maxLength := Nat.le_of_lt_succ hn
    simpa only [hle, if_true] using Undoes.pure (a := n) (by simp)
  simpa using hchecked

end Undoes

end Reader

end TorusFHE
