import TorusFHE.Proofs.Wire.Shape
import TorusFHE.Wire.Buffer

/-!
# Reading and writing buffers

Buffers and the objects that pass their shape checks correspond to each other.

* `Buffer.body_eq_ok_iff`: a buffer has a body exactly if it starts with the header of its kind;
* `Buffer.of_deserialize_eq_ok`: what a buffer that is read consists of;
* `Buffer.deserialize_serialize`: an object that passes its check is read back from its buffer;
* `Buffer.serialize_eq_of_deserialize`: only the buffer of an object is read as that object.
-/

namespace TorusFHE

open LawfulFormat

namespace Buffer

/-! ## Headers -/

instance : LawfulFormat Header := by
  delta instWireFormatHeader
  exact .via (fun _ => rfl) fun _ => rfl

theorem fits_header (found : Header) : Fits found :=
  ⟨fun _ _ => trivial, trivial, trivial, trivial⟩

/-- Four bytes, a number of two and two bytes. -/
theorem encode_header (found : Header) :
    WireFormat.encode found =
      found.magic.toList ++ (numberBytes 2 found.version.toNat ++ [found.kind, found.reserved]) := by
  have hparts : WireFormat.encode found = found.magic.toList.flatMap WireFormat.encode ++
      (numberBytes 2 found.version.toNat ++
        (WireFormat.encode found.kind ++ WireFormat.encode found.reserved)) := rfl
  rw [hparts, WireFormat.flatMap_encode_bytes, WireFormat.encode_byte, WireFormat.encode_byte,
    List.singleton_append]

theorem length_encode_header (found : Header) :
    (WireFormat.encode found).length = headerSize := by
  simp [encode_header, headerSize]

/-- Any eight bytes are a header, if not a right one. -/
theorem exists_encode_header {bs : List UInt8} (h : bs.length = headerSize) :
    ∃ found : Header, WireFormat.encode found = bs := by
  match bs, h with
  | [m₀, m₁, m₂, m₃, v₀, v₁, code, reserved], _ =>
    refine ⟨⟨#v[m₀, m₁, m₂, m₃], .ofNat (numberOfBytes [v₀, v₁]), code, reserved⟩, ?_⟩
    have hlt : numberOfBytes [v₀, v₁] < UInt16.size := by
      simpa [UInt16.size] using numberOfBytes_lt [v₀, v₁]
    have hversion : numberBytes 2 (UInt16.ofNat (numberOfBytes [v₀, v₁])).toNat = [v₀, v₁] := by
      rw [UInt16.toNat_ofNat_of_lt' hlt]
      exact numberBytes_numberOfBytes [v₀, v₁]
    rw [encode_header, hversion]
    rfl

/-- In front of a buffer, a header is refused for the first of its fields that is wrong. -/
theorem body_encode_append (kind : ObjectKind) (found : Header) (rest : List UInt8) :
    body kind (WireFormat.encode found ++ rest) =
      if found.magic ≠ magic then .error .badMagic
      else if found.version ≠ version then .error (.unsupportedVersion found.version.toNat)
      else if found.kind ≠ kind.code then
        .error (.unexpectedKind kind.code.toNat found.kind.toNat)
      else if found.reserved ≠ 0 then .error (.malformed .reservedByte)
      else .ok rest := by
  have hlength : ¬(WireFormat.encode found ++ rest).length < headerSize := by
    rw [List.length_append, length_encode_header]
    exact Nat.not_lt.2 (Nat.le_add_right _ _)
  have htake : (WireFormat.encode found ++ rest).take headerSize = WireFormat.encode found :=
    List.take_left' (length_encode_header found)
  have hdrop : (WireFormat.encode found ++ rest).drop headerSize = rest :=
    List.drop_left' (length_encode_header found)
  rw [body, if_neg hlength, htake, hdrop, readAll_encode (fits_header found)]
  rfl

/-- A buffer shorter than a header is truncated. -/
theorem body_eq_truncated {kind : ObjectKind} {buffer : List UInt8}
    (h : buffer.length < headerSize) : body kind buffer = .error .truncated :=
  if_pos h

/-- A buffer has a body exactly if it starts with the header of its kind. -/
theorem body_eq_ok_iff {kind : ObjectKind} {buffer rest : List UInt8} :
    body kind buffer = .ok rest ↔ buffer = header kind ++ rest := by
  constructor
  · intro h
    cases Nat.lt_or_ge buffer.length headerSize with
    | inl hshort => simp [body_eq_truncated hshort] at h
    | inr hlong =>
      have hsplit : buffer.take headerSize ++ buffer.drop headerSize = buffer :=
        List.take_append_drop headerSize buffer
      rcases exists_encode_header (List.length_take_of_le hlong) with ⟨found, hfound⟩
      rw [← hsplit, ← hfound, body_encode_append] at h
      -- No guard has failed, so every field of the header is the prescribed one.
      simp only [ite_error_eq_ok_iff, not_not] at h
      rcases h with ⟨hmagic, hversion, hkind, hreserved, h⟩
      have hheader : found = ⟨magic, version, kind.code, 0⟩ := by
        cases found
        simp_all
      rw [← hsplit, ← hfound, hheader, Except.ok.inj h]
      rfl
  · rintro rfl
    rw [header, body_encode_append]
    simp

variable {α : Type} [WireObject α]

/-- What is read from a buffer is read from the bytes behind the right header, to their end, and has
passed its check. -/
theorem of_deserialize_eq_ok {a : α} {buffer : List UInt8} (h : deserialize buffer = .ok a) :
    (∃ rest behind, buffer = header (WireObject.kind α) ++ rest ∧
      (WireFormat.decode : Reader α).run (.whole rest) = .ok (a, behind) ∧ behind.bytes = []) ∧
    WireObject.checkShape a = .ok () := by
  rw [deserialize, mapError_eq_ok_iff, decode, bind_eq_ok_iff] at h
  rcases h with ⟨rest, hbody, h⟩
  rcases bind_eq_ok_iff.1 h with ⟨⟨a', behind⟩, hdecode, h⟩
  rw [mapError_eq_ok_iff] at hdecode
  cases hbehind : behind.bytes with
  | cons b bs => simp [hbehind] at h
  | nil =>
    simp only [hbehind, List.isEmpty_nil, if_true] at h
    rw [check_bind_eq_ok_iff, mapError_eq_ok_iff] at h
    rcases h with ⟨hshape, h⟩
    cases h
    exact ⟨⟨rest, behind, body_eq_ok_iff.1 hbody, hdecode, hbehind⟩, hshape⟩

variable [LawfulFormat α]

/-! ## Round trips -/

/-- An object that fits and passes its check is read back from its buffer. -/
theorem deserialize_serialize {a : α} (hfits : Fits a) (hshape : WireObject.checkShape a = .ok ()) :
    deserialize (serialize a) = .ok a := by
  have hbody : body (WireObject.kind α) (serialize a) = .ok (WireFormat.encode a) :=
    body_eq_ok_iff.2 rfl
  have hdecode : (WireFormat.decode : Reader α).run (.whole (WireFormat.encode a)) =
      .ok (a, .whole []) := by
    simpa using decode_whole_append hfits []
  rw [deserialize, mapError_eq_ok_iff, decode, hbody, ok_bind, hdecode]
  simp [ByteSource.whole, hshape]

/-- Only the buffer of an object is read as that object. -/
theorem serialize_eq_of_deserialize {a : α} {buffer : List UInt8} (h : deserialize buffer = .ok a) :
    serialize a = buffer := by
  rcases of_deserialize_eq_ok h with ⟨⟨rest, behind, rfl, hdecode, hbehind⟩, -⟩
  -- The body was read to its end, so nothing stands behind the object.
  rcases eq_append_of_decode_whole hdecode with ⟨-, rfl⟩
  rw [hbehind, serialize, List.append_nil]

/-- No other buffer is read as the same object. -/
theorem canonical {a : α} {buffer : List UInt8} (h : deserialize buffer = .ok a) :
    serialize a = buffer ∧ ∀ other, deserialize other = .ok a → other = buffer := by
  have hbuffer : serialize a = buffer := serialize_eq_of_deserialize h
  refine ⟨hbuffer, ?_⟩
  intro other hother
  rw [← hbuffer, serialize_eq_of_deserialize hother]

/-! ## All kinds of objects -/

/-- Whatever object passes its shape check is read back from its buffer, of any of the six kinds. -/
theorem deserialize_serialize_of_checkShape :
    (∀ p : Parameters, p.checkShape = .ok () → deserialize (serialize p) = .ok p) ∧
    (∀ c : Ciphertext, c.checkShape = .ok () → deserialize (serialize c) = .ok c) ∧
    (∀ c : CompressedCiphertext, c.checkShape = .ok () → deserialize (serialize c) = .ok c) ∧
    (∀ k : ServerKey, k.checkShape = .ok () → deserialize (serialize k) = .ok k) ∧
    (∀ k : PublicKey, k.checkShape = .ok () → deserialize (serialize k) = .ok k) ∧
    (∀ k : CompressedPublicKey, k.checkShape = .ok () → deserialize (serialize k) = .ok k) := by
  refine ⟨?_, ?_, ?_, ?_, ?_, ?_⟩
  · intro p h
    exact deserialize_serialize (fits_parameters p) h
  · intro c h
    exact deserialize_serialize (Ciphertext.fits_of_checkShape h) h
  · intro c h
    exact deserialize_serialize (fits_compressedCiphertext c) h
  · intro k h
    exact deserialize_serialize (ServerKey.fits_of_checkShape h) h
  · intro k h
    exact deserialize_serialize (PublicKey.fits_of_checkShape h) h
  · intro k h
    exact deserialize_serialize (CompressedPublicKey.fits_of_checkShape h) h

/-- A server key of dimension one passes its check and is read back. -/
theorem deserialize_serialize_smallest_serverKey :
    let p : Parameters :=
      ⟨1, 1, 2, ⟨0x3f50000000000000⟩, ⟨0x3f40000000000000⟩, 4, 1, 3, 1⟩
    let row : GlweSample := ⟨[⟨[⟨5⟩, ⟨0xffffffff⟩]⟩], ⟨[⟨0x20000000⟩, ⟨7⟩]⟩⟩
    let k : ServerKey := ⟨[⟨[row, row]⟩], ⟨[⟨[⟨9⟩], ⟨11⟩⟩, ⟨[⟨13⟩], ⟨0x80000000⟩⟩]⟩, p⟩
    k.checkShape = .ok () ∧ deserialize (serialize k) = .ok k := by
  intro p row k
  have hvalid : p.Valid := by decide +kernel
  have hshape : k.checkShape = .ok () := by
    rw [ServerKey.checkShape, Parameters.checkShape_eq_ok_iff.2 hvalid]
    rfl
  exact ⟨hshape, deserialize_serialize_of_checkShape.2.2.2.1 k hshape⟩

/-- Whatever buffer is read as an object, of any of the six kinds, is the buffer of that object and
the only one to be read as it. -/
theorem deserialize_canonical :
    (∀ (buffer : List UInt8) (p : Parameters), deserialize buffer = .ok p →
      serialize p = buffer ∧ ∀ other, deserialize other = .ok p → other = buffer) ∧
    (∀ (buffer : List UInt8) (c : Ciphertext), deserialize buffer = .ok c →
      serialize c = buffer ∧ ∀ other, deserialize other = .ok c → other = buffer) ∧
    (∀ (buffer : List UInt8) (c : CompressedCiphertext), deserialize buffer = .ok c →
      serialize c = buffer ∧ ∀ other, deserialize other = .ok c → other = buffer) ∧
    (∀ (buffer : List UInt8) (k : ServerKey), deserialize buffer = .ok k →
      serialize k = buffer ∧ ∀ other, deserialize other = .ok k → other = buffer) ∧
    (∀ (buffer : List UInt8) (k : PublicKey), deserialize buffer = .ok k →
      serialize k = buffer ∧ ∀ other, deserialize other = .ok k → other = buffer) ∧
    (∀ (buffer : List UInt8) (k : CompressedPublicKey), deserialize buffer = .ok k →
      serialize k = buffer ∧ ∀ other, deserialize other = .ok k → other = buffer) :=
  ⟨fun _ _ => canonical, fun _ _ => canonical, fun _ _ => canonical, fun _ _ => canonical,
    fun _ _ => canonical, fun _ _ => canonical⟩

/-- The buffer of a ciphertext of dimension two. -/
theorem deserialize_canonical_two_entries :
    let buffer : List UInt8 :=
      [0x42, 0x46, 0x48, 0x45, 1, 0, 2, 0] ++ [2, 0, 0, 0, 0, 0, 0, 0] ++
        [2, 0, 0, 0, 0, 0, 0, 0] ++ [0x78, 0x56, 0x34, 0x12, 0xff, 0xff, 0xff, 0xff] ++
        [0, 0, 0, 0x20]
    let c : Ciphertext := ⟨2, [⟨0x12345678⟩, ⟨0xffffffff⟩], ⟨0x20000000⟩⟩
    deserialize buffer = .ok c ∧ serialize c = buffer ∧
      ∀ other, deserialize other = .ok c → other = buffer := by
  intro buffer c
  have hread : deserialize buffer = .ok c := by rfl
  exact ⟨hread, deserialize_canonical.2.1 buffer c hread⟩

end Buffer

end TorusFHE
