import TorusFHE.Proofs.Wire.Buffer

/-!
# Damaged buffers

The lengths inside an object say how many bytes its body has, so that no body is the front of
another.  A buffer that was cut short is therefore refused as truncated and one with bytes behind it
for these bytes, whatever object it holds: sizes and parameters are looked at only after the body
has been read to its end and nothing stands behind it.

* `LawfulFormat.decode_whole_of_append`: no encoding is the front of another, and where one is cut
  short the reader is stopped by the limit;
* `Buffer.deserialize_of_prefix` and `Buffer.deserialize_append`: buffers that are too short and too
  long;
* `Buffer.error_of_deserialize_header_append`: what else a buffer with the right header can be
  refused for.
-/

namespace TorusFHE

open LawfulFormat

namespace LawfulFormat

variable {α : Type} [WireFormat α] [LawfulFormat α]

/-- Where one value ends is decided by its bytes alone. -/
theorem encode_append_inj {a b : α} (ha : Fits a) (hb : Fits b) {rest rest' : List UInt8}
    (h : WireFormat.encode a ++ rest = WireFormat.encode b ++ rest') : a = b ∧ rest = rest' := by
  have hread : Except.ok (ε := ReadError) (a, ByteSource.whole rest) =
      .ok (b, ByteSource.whole rest') := by
    calc
      Except.ok (a, ByteSource.whole rest)
          = (WireFormat.decode : Reader α).run (.whole (WireFormat.encode a ++ rest)) :=
            (decode_whole_append ha rest).symm
      _ = (WireFormat.decode : Reader α).run (.whole (WireFormat.encode b ++ rest')) := by rw [h]
      _ = .ok (b, ByteSource.whole rest') := decode_whole_append hb rest'
  rcases Prod.mk.inj (Except.ok.inj hread) with ⟨hvalue, hsource⟩
  exact ⟨hvalue, congrArg ByteSource.bytes hsource⟩

/-- Nothing is read from the front of an encoding that lacks some of its bytes: a length or a number
asks for more than the limit leaves. -/
theorem decode_whole_of_append {a : α} (ha : Fits a) {front missing : List UInt8}
    (h : WireFormat.encode a = front ++ missing) (hmissing : missing ≠ []) :
    (WireFormat.decode : Reader α).run (.whole front) = .error .sizeLimit := by
  cases hdecode : (WireFormat.decode : Reader α).run (.whole front) with
  | error e => rw [eq_sizeLimit_of_decode_whole hdecode]
  | ok r =>
    rcases r with ⟨b, behind⟩
    rcases eq_append_of_decode_whole hdecode with ⟨hb, rfl⟩
    -- The value that was read would leave the missing bytes behind it, and nothing is behind `a`.
    have happend : WireFormat.encode a ++ [] =
        WireFormat.encode b ++ (behind.bytes ++ missing) := by
      rw [List.append_nil, h, List.append_assoc]
    rcases encode_append_inj ha hb happend with ⟨-, hnil⟩
    have hrest : behind.bytes = [] ∧ missing = [] := List.append_eq_nil_iff.1 hnil.symm
    exact absurd hrest.2 hmissing

end LawfulFormat

namespace Buffer

/-! ## Buffers with the right header -/

variable {α : Type} [WireObject α] {rest : List UInt8}

theorem deserialize_of_decode_eq_error {e : ReadError}
    (h : (WireFormat.decode : Reader α).run (.whole rest) = .error e) :
    (deserialize (header (WireObject.kind α) ++ rest) : Except Error α) =
      .error (.deserialization (.ofRead e)) := by
  rw [deserialize, decode, body_eq_ok_iff.2 rfl, ok_bind, h]
  rfl

theorem deserialize_of_decode_eq_cons {a : α} {behind : ByteSource}
    (h : (WireFormat.decode : Reader α).run (.whole rest) = .ok (a, behind))
    (hbehind : behind.bytes ≠ []) :
    (deserialize (header (WireObject.kind α) ++ rest) : Except Error α) =
      .error (.deserialization .trailingBytes) := by
  have hmore : behind.bytes.isEmpty = false := by simpa using hbehind
  rw [deserialize, decode, body_eq_ok_iff.2 rfl, ok_bind, h, mapError_ok, ok_bind]
  simp only [hmore]
  rfl

/-- An object that fills its body is refused for its shape or not at all. -/
theorem deserialize_of_decode_eq_nil {a : α} {behind : ByteSource}
    (h : (WireFormat.decode : Reader α).run (.whole rest) = .ok (a, behind))
    (hbehind : behind.bytes = []) :
    (deserialize (header (WireObject.kind α) ++ rest) : Except Error α) =
      ((WireObject.checkShape a).mapError fun cause => .deserialization (.shape cause)).map
        fun _ => a := by
  rw [deserialize, decode, body_eq_ok_iff.2 rfl, ok_bind, h, mapError_ok, ok_bind]
  simp only [hbehind]
  change (((WireObject.checkShape a).mapError DecodeError.shape >>= fun _ => .ok a).mapError
    Error.deserialization) = _
  cases WireObject.checkShape a with
  | error cause => rfl
  | ok u => rfl

variable [LawfulFormat α]

/-! ## Damage -/

/-- A proper front part of the buffer of an object is truncated, wherever it ends. -/
theorem deserialize_of_prefix {a : α} (ha : Fits a) {front : List UInt8}
    (hfront : front <+: serialize a) (hproper : front ≠ serialize a) :
    (deserialize front : Except Error α) = .error (.deserialization .truncated) := by
  cases Nat.lt_or_ge front.length headerSize with
  | inl hshort =>
    -- The buffer ends inside its header.
    rw [deserialize, decode, body_eq_truncated hshort]
    rfl
  | inr hlong =>
    -- The buffer ends inside its body, which is a proper front part of the encoding.
    have hsize : (header (WireObject.kind α)).length = headerSize := length_encode_header _
    have hheader : header (WireObject.kind α) <+: front :=
      List.prefix_of_prefix_length_le (List.prefix_append _ _) hfront (hsize.trans_le hlong)
    rcases hheader with ⟨rest, rfl⟩
    rcases hfront with ⟨missing, hmissing⟩
    have hencode : WireFormat.encode a = rest ++ missing := by
      rw [serialize, List.append_assoc] at hmissing
      exact (List.append_cancel_left hmissing).symm
    have hne : missing ≠ [] := by
      intro hnil
      apply hproper
      rw [← hmissing, hnil, List.append_nil]
    exact deserialize_of_decode_eq_error (decode_whole_of_append ha hencode hne)

/-- The buffer of an object with bytes behind it is refused for these bytes. -/
theorem deserialize_append {a : α} (ha : Fits a) {extra : List UInt8} (hextra : extra ≠ []) :
    (deserialize (serialize a ++ extra) : Except Error α) =
      .error (.deserialization .trailingBytes) := by
  rw [serialize, List.append_assoc]
  exact deserialize_of_decode_eq_cons (decode_whole_append ha extra) hextra

/-- A buffer with the right header is refused because it is too short or too long, or else its body
is the encoding of an object whose shape does not hold together. -/
theorem error_of_deserialize_header_append {e : Error}
    (h : (deserialize (header (WireObject.kind α) ++ rest) : Except Error α) = .error e) :
    e = .deserialization .truncated ∨ e = .deserialization .trailingBytes ∨
      ∃ (cause : ShapeError) (a : α), e = .deserialization (.shape cause) ∧ Fits a ∧
        WireFormat.encode a = rest ∧ WireObject.checkShape a = .error cause := by
  cases hdecode : (WireFormat.decode : Reader α).run (.whole rest) with
  | error cause =>
    rw [deserialize_of_decode_eq_error hdecode, eq_sizeLimit_of_decode_whole hdecode] at h
    exact .inl (Except.error.inj h).symm
  | ok r =>
    rcases r with ⟨a, behind⟩
    by_cases hbehind : behind.bytes = []
    · rw [deserialize_of_decode_eq_nil hdecode hbehind] at h
      rcases eq_append_of_decode_whole hdecode with ⟨hfits, hrest⟩
      rw [hbehind, List.append_nil] at hrest
      cases hshape : WireObject.checkShape a with
      | ok u => simp [hshape, Except.map] at h
      | error cause =>
        rw [hshape] at h
        exact .inr (.inr ⟨cause, a, (Except.error.inj h).symm, hfits, hrest.symm, hshape⟩)
    · rw [deserialize_of_decode_eq_cons hdecode hbehind] at h
      exact .inr (.inl (Except.error.inj h).symm)

variable (α) in
/-- What a kind of object owes to whoever reads a damaged buffer.  The objects need not pass their
shape check; they only have to fit, as every object with lengths of 64 bits does. -/
structure RefusesDamage : Prop where
  /-- Every proper front part of a buffer is truncated. -/
  truncated : ∀ (a : α) (front : List UInt8), Fits a → front <+: serialize a →
    front ≠ serialize a →
    (deserialize front : Except Error α) = .error (.deserialization .truncated)
  /-- Bytes behind an object are trailing bytes. -/
  trailing : ∀ (a : α) (extra : List UInt8), Fits a → extra ≠ [] →
    (deserialize (serialize a ++ extra) : Except Error α) =
      .error (.deserialization .trailingBytes)
  /-- Behind the right header, whatever the lengths in it, a body is accepted, truncated, followed
  by trailing bytes, or just the encoding of an object of the wrong shape. -/
  refused : ∀ (rest : List UInt8) (e : Error),
    (deserialize (header (WireObject.kind α) ++ rest) : Except Error α) = .error e →
    e = .deserialization .truncated ∨ e = .deserialization .trailingBytes ∨
      ∃ (cause : ShapeError) (a : α), e = .deserialization (.shape cause) ∧ Fits a ∧
        WireFormat.encode a = rest ∧ WireObject.checkShape a = .error cause
  /-- Behind the right header, the reader of a body is stopped by the limit and never by the end of
  the bytes, and it never complains of what it reads: it has no error that would be malformed. -/
  limited : ∀ (rest : List UInt8) (cause : ReadError),
    (WireFormat.decode : Reader α).run (.whole rest) = .error cause → cause = .sizeLimit
  /-- Nothing behind the right header is malformed. -/
  never_malformed : ∀ (rest : List UInt8) (cause : Malformation),
    (deserialize (header (WireObject.kind α) ++ rest) : Except Error α) ≠
      .error (.deserialization (.malformed cause))

theorem refusesDamage : RefusesDamage α where
  truncated _ _ ha hfront hproper := deserialize_of_prefix ha hfront hproper
  trailing _ _ ha hextra := deserialize_append ha hextra
  refused _ _ h := error_of_deserialize_header_append h
  limited _ _ h := eq_sizeLimit_of_decode_whole h
  never_malformed rest cause h := by
    rcases error_of_deserialize_header_append h with he | he | ⟨cause', a, he, -⟩
    · simp at he
    · simp at he
    · simp at he

/-! ## All kinds of objects -/

/-- Damaged buffers are refused as such, of any of the six kinds. -/
theorem refusesDamage_of_every_kind :
    RefusesDamage Parameters ∧ RefusesDamage Ciphertext ∧ RefusesDamage CompressedCiphertext ∧
      RefusesDamage ServerKey ∧ RefusesDamage PublicKey ∧ RefusesDamage CompressedPublicKey :=
  ⟨refusesDamage, refusesDamage, refusesDamage, refusesDamage, refusesDamage, refusesDamage⟩

/-- A ciphertext that declares three entries and has one: its buffer is truncated without its last
byte, too long with another one, and of the wrong shape as it is. -/
theorem refusesDamage_ragged_ciphertext :
    let c : Ciphertext := ⟨3, [⟨7⟩], ⟨5⟩⟩
    (deserialize ((serialize c).take 31) : Except Error Ciphertext) =
        .error (.deserialization .truncated) ∧
      (deserialize (serialize c ++ [0]) : Except Error Ciphertext) =
        .error (.deserialization .trailingBytes) ∧
      ∃ e, (deserialize (header .ciphertext ++ WireFormat.encode c) : Except Error Ciphertext) =
          .error e ∧
        e = .deserialization (.shape (.size .mask 3 1)) ∧
        (e = .deserialization .truncated ∨ e = .deserialization .trailingBytes ∨
          ∃ (cause : ShapeError) (a : Ciphertext), e = .deserialization (.shape cause) ∧ Fits a ∧
            WireFormat.encode a = WireFormat.encode c ∧
            WireObject.checkShape a = .error cause) := by
  intro c
  have hfits : Fits c := ⟨trivial, fits_lweSample (by decide)⟩
  have hread : (WireFormat.decode : Reader Ciphertext).run (.whole (WireFormat.encode c)) =
      .ok (c, .whole []) := by
    simpa using decode_whole_append hfits []
  have hshape :
      (deserialize (header .ciphertext ++ WireFormat.encode c) : Except Error Ciphertext) =
        .error (.deserialization (.shape (.size .mask 3 1))) :=
    deserialize_of_decode_eq_nil hread rfl
  refine ⟨?_, ?_, _, hshape, rfl, ?_⟩
  · exact refusesDamage_of_every_kind.2.1.truncated c _ hfits (List.take_prefix _ _) (by decide)
  · exact refusesDamage_of_every_kind.2.1.trailing c [0] hfits (by decide)
  · exact refusesDamage_of_every_kind.2.1.refused _ _ hshape

end Buffer

end TorusFHE
