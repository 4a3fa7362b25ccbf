import TorusFHE.Proofs.Wire.Reader
import TorusFHE.Wire.Objects

/-!
# Laws of the binary formats

In every format of the library, reading undoes writing: a value that fits is read back from in front
of anything, whatever is read stands there as just the bytes of the value, and reading fails only
where the limit or the bytes run out.  A value fits if the length of each of its lists is a number of
eight bytes.

* `LawfulFormat`: the values that fit, and the law;
* `LawfulFormat.decode_whole_append` and `LawfulFormat.eq_append_of_decode_whole`: what the law says
  of bytes that may all be read;
* `LawfulFormat.via`: a structure has the law of the tuple of its parts.
-/

namespace TorusFHE

/-- Formats in which reading undoes writing. -/
class LawfulFormat (α : Type) [WireFormat α] where
  /-- Whether the length of each list in a value fits into eight bytes. -/
  Fits : α → Prop
  undoes : Reader.Undoes (WireFormat.decode : Reader α) WireFormat.encode Fits

open LawfulFormat

namespace WireFormat

/-! ## Bytes -/

@[simp] theorem encode_byte (b : UInt8) : encode b = [b] := by
  simp [encode, numberBytes]

theorem flatMap_encode_bytes (bs : List UInt8) : bs.flatMap encode = bs := by
  induction bs with
  | nil => rfl
  | cons b bs ih => rw [List.flatMap_cons, ih, encode_byte, List.singleton_append]

/-! ## Lists -/

variable {α : Type} [WireFormat α]

theorem readMany_succ (count : Nat) (acc : List α) :
    readMany (count + 1) acc = (decode >>= fun a => readMany count (a :: acc)) := by
  funext s
  change _ = ((decode : Reader α).run s >>= fun r => readMany count (r.1 :: acc) r.2)
  rw [readMany]
  cases (decode : Reader α).run s with
  | error e => rfl
  | ok r => rfl

variable [LawfulFormat α]

theorem run_readMany_eq_ok_iff {count : Nat} {acc l : List α} {s s' : ByteSource} :
    (readMany count acc).run s = .ok (l, s') ↔
      ∃ tail, l = acc.reverse ++ tail ∧ tail.length = count ∧ (∀ a ∈ tail, Fits a) ∧
        s = s'.prepend (tail.flatMap encode) := by
  induction count generalizing acc s with
  | zero =>
    have hstop : (readMany 0 acc).run s = .ok (l, s') ↔ acc.reverse = l ∧ s = s' := by
      simp [readMany, StateT.run]
    rw [hstop]
    constructor
    · rintro ⟨rfl, rfl⟩
      exact ⟨[], by simp⟩
    · rintro ⟨tail, rfl, hlength, -, rfl⟩
      obtain rfl := List.length_eq_zero_iff.1 hlength
      simp
  | succ count ih =>
    rw [readMany_succ, Reader.run_bind_eq_ok_iff]
    constructor
    · rintro ⟨a, s₁, hdecode, hrest⟩
      obtain ⟨ha, rfl⟩ := undoes.run_eq_ok_iff.1 hdecode
      obtain ⟨tail, rfl, rfl, hfits, rfl⟩ := ih.1 hrest
      refine ⟨a :: tail, by simp, rfl, List.forall_mem_cons.2 ⟨ha, hfits⟩, ?_⟩
      rw [List.flatMap_cons, ByteSource.prepend_append]
    · rintro ⟨tail, rfl, hlength, hfits, rfl⟩
      cases tail with
      | nil => simp at hlength
      | cons a tail =>
        rcases List.forall_mem_cons.1 hfits with ⟨ha, htail⟩
        rw [List.flatMap_cons, ByteSource.prepend_append]
        exact ⟨a, _, undoes.run_eq_ok_iff.2 ⟨ha, rfl⟩,
          ih.2 ⟨tail, by simp, Nat.succ.inj hlength, htail, rfl⟩⟩

theorem stops_of_run_readMany {count : Nat} {acc : List α} {s : ByteSource} {e : ReadError}
    (h : (readMany count acc).run s = .error e) : s.Stops e := by
  induction count generalizing acc s with
  | zero => simp [readMany, StateT.run] at h
  | succ count ih =>
    rw [readMany_succ] at h
    rcases Reader.run_bind_eq_error_iff.1 h with hdecode | ⟨a, s₁, hdecode, hrest⟩
    · exact undoes.stops hdecode
    · obtain ⟨-, rfl⟩ := undoes.run_eq_ok_iff.1 hdecode
      exact (ih hrest).prepend (encode a)

/-- A number of values in a row. -/
theorem undoes_readMany (count : Nat) :
    Reader.Undoes (readMany count [] : Reader (List α)) (fun l => l.flatMap encode)
      fun l => l.length = count ∧ ∀ a ∈ l, Fits a where
  run_eq_ok_iff {l s s'} := by
    rw [run_readMany_eq_ok_iff]
    simp [and_assoc]
  stops := stops_of_run_readMany

end WireFormat

open WireFormat

namespace LawfulFormat

/-! ## Lawful formats -/

instance : LawfulFormat UInt8 where
  Fits _ := True
  undoes := .word (fun w => w.toNat_lt) (fun _ => UInt8.ofNat_toNat) fun _ => UInt8.toNat_ofNat_of_lt'

instance : LawfulFormat UInt16 where
  Fits _ := True
  undoes := .word (fun w => w.toNat_lt) (fun _ => UInt16.ofNat_toNat)
    fun _ => UInt16.toNat_ofNat_of_lt'

instance : LawfulFormat UInt32 where
  Fits _ := True
  undoes := .word (fun w => w.toNat_lt) (fun _ => UInt32.ofNat_toNat)
    fun _ => UInt32.toNat_ofNat_of_lt'

instance : LawfulFormat UInt64 where
  Fits _ := True
  undoes := .word (fun w => w.toNat_lt) (fun _ => UInt64.ofNat_toNat)
    fun _ => UInt64.toNat_ofNat_of_lt'

variable {α β : Type} [WireFormat α] [LawfulFormat α] [WireFormat β] [LawfulFormat β]

instance : LawfulFormat (α × β) where
  Fits p := Fits p.1 ∧ Fits p.2
  undoes := by
    refine undoes.bind fun a _ => ?_
    have hsecond : Reader.Undoes ((a, ·) <$> (decode : Reader β)) (fun p => encode p.2)
        fun p => p.1 = a ∧ Fits p.2 := by
      refine undoes.map ?_ fun b hb => ⟨⟨rfl, hb⟩, rfl⟩
      rintro ⟨_, b⟩ ⟨rfl, hb⟩
      exact ⟨hb, rfl⟩
    exact hsecond

instance : LawfulFormat (List α) where
  Fits l := l.length < 2 ^ 64 ∧ ∀ a ∈ l, Fits a
  undoes := Reader.Undoes.length.bind fun count _ => undoes_readMany count

/-- An array fits if its entries do. -/
instance {n : Nat} : LawfulFormat (Vector α n) where
  Fits v := ∀ a ∈ v.toList, Fits a
  undoes := by
    have hchecked : Reader.Undoes (decode : Reader (Vector α n))
        (fun v => v.toList.flatMap encode ++ [])
        fun v => (v.toList.length = n ∧ ∀ a ∈ v.toList, Fits a) ∧ True := by
      refine (undoes_readMany n).bind fun l hl => ?_
      -- As many entries have been read as the array has.
      simp only [hl.1, dite_true]
      refine .pure fun v => ?_
      rw [and_true, ← Vector.toArray_inj, ← Array.toList_inj]
      rfl
    have hwrite : (fun v : Vector α n => v.toList.flatMap encode ++ []) = encode := by
      funext v
      exact List.append_nil _
    rw [hwrite] at hchecked
    simpa using hchecked

/-- A structure has the law of the tuple of its parts, if it is made of them and nothing else. -/
@[reducible] def via {part : α → β} {make : β → α} (make_part : ∀ a, make (part a) = a)
    (part_make : ∀ b, part (make b) = b) : @LawfulFormat α (WireFormat.via part make) :=
  letI : WireFormat α := WireFormat.via part make
  { Fits := fun a => Fits (part a)
    undoes := undoes.map (fun a ha => ⟨ha, make_part a⟩) fun b hb => ⟨by rwa [part_make], part_make b⟩ }

/-! ## Bytes that may all be read -/

/-- A value that fits is read back from in front of any bytes. -/
theorem decode_whole_append {a : α} (ha : Fits a) (rest : List UInt8) :
    (decode : Reader α).run (.whole (encode a ++ rest)) = .ok (a, .whole rest) :=
  undoes.run_eq_ok_iff.2 ⟨ha, (ByteSource.prepend_whole _ _).symm⟩

/-- What is read fits, and stands in front as its own bytes. -/
theorem eq_append_of_decode_whole {a : α} {bs : List UInt8} {behind : ByteSource}
    (h : (decode : Reader α).run (.whole bs) = .ok (a, behind)) :
    Fits a ∧ bs = encode a ++ behind.bytes := by
  rcases undoes.run_eq_ok_iff.1 h with ⟨ha, hwhole⟩
  exact ⟨ha, congrArg ByteSource.bytes hwhole⟩

/-- Reading all bytes there are fails by the limit and by nothing else. -/
theorem eq_sizeLimit_of_decode_whole {bs : List UInt8} {e : ReadError}
    (h : (decode : Reader α).run (.whole bs) = .error e) : e = .sizeLimit :=
  (undoes.stops h).eq_sizeLimit

theorem readAll_encode {a : α} (ha : Fits a) : readAll (encode a) = .ok a := by
  have hread : (decode : Reader α).run ⟨encode a, none⟩ = .ok (a, ⟨[], none⟩) :=
    undoes.run_eq_ok_iff.2 ⟨ha, by simp [ByteSource.prepend]⟩
  simp [readAll, hread]

end LawfulFormat

end TorusFHE
