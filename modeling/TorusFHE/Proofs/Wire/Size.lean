import TorusFHE.Proofs.Wire.Generated

/-!
# Sizes of buffers

Numbers have fixed widths and a list adds eight bytes for its length, so the size of a buffer is a
matter of the lengths in its object alone.  These are prescribed by the parameters for every object
that passes its check, and the size is a polynomial in the dimensions, whatever the object holds.

* `WireFormat.length_encode_list`: lists of values of one size;
* `GlweSample.length_encode` and the like: objects of the prescribed lengths;
* `Buffer.length_serialize_of_checkShape`: the buffers of all objects of an instance.
-/

namespace TorusFHE

open WireFormat (encode)

/-! ## Values of fixed size -/

namespace WireFormat

theorem length_encode_word64 (w : UInt64) : (encode w).length = 8 :=
  length_numberBytes 8 _

theorem length_encode_torus (x : Torus) : (encode x).length = 4 :=
  length_numberBytes 4 _

theorem length_encode_seed (s : Seed) : (encode s).length = 32 := by
  have hbytes : encode s = s.bytes := flatMap_encode_bytes s.bytes
  rw [hbytes, s.length_bytes]

/-- Nine numbers of eight bytes. -/
theorem length_encode_parameters (p : Parameters) : (encode p).length = 72 :=
  rfl

theorem length_encode_pair {α β : Type} [WireFormat α] [WireFormat β] (a : α) (b : β) :
    (encode (a, b)).length = (encode a).length + (encode b).length :=
  List.length_append

/-- A list of values that all have one size. -/
theorem length_encode_list {α : Type} [WireFormat α] {l : List α} {size : Nat}
    (h : ∀ a ∈ l, (encode a).length = size) : (encode l).length = 8 + l.length * size := by
  have hentries : (l.flatMap encode).length = l.length * size := by
    rw [List.length_flatMap, List.sum_eq_card_nsmul _ size (by simpa using h)]
    simp
  calc
    (encode l).length = (numberBytes 8 l.length ++ l.flatMap encode).length := rfl
    _ = 8 + l.length * size := by rw [List.length_append, length_numberBytes, hentries]

end WireFormat

open WireFormat

/-! ## Samples -/

theorem TorusVec.length_encode (v : TorusVec) : (encode v).length = 8 + 4 * v.length := by
  rw [length_encode_list fun x _ => length_encode_torus x, Nat.mul_comm]

theorem LweSample.length_encode (c : LweSample) : (encode c).length = 12 + 4 * c.dimension := by
  have hparts : (encode c).length = (encode c.mask).length + (encode c.body).length :=
    length_encode_pair c.mask c.body
  rw [hparts, TorusVec.length_encode, length_encode_torus, dimension]
  omega

theorem SeededSample.length_encode (c : SeededSample) : (encode c).length = 36 := by
  have hparts : (encode c).length = (encode c.seed).length + (encode c.body).length :=
    length_encode_pair c.seed c.body
  rw [hparts, length_encode_seed, length_encode_torus]

theorem Polynomial.length_encode (q : Polynomial) : (encode q).length = 8 + 4 * q.size :=
  TorusVec.length_encode q.coeffs

/-! ## Parts of a server key -/

section Parts

variable {p : Parameters}

theorem GlweSample.length_encode {c : GlweSample} (h : c.checkShape p = .ok ()) :
    (encode c).length = 8 + (p.k + 1) * (8 + 4 * p.degree) := by
  rcases checkShape_eq_ok_iff.1 h with ⟨hmask, hpolys⟩
  have hpoly : ∀ q ∈ c.mask ++ [c.body], (encode q).length = 8 + 4 * p.degree := by
    intro q hq
    rw [Polynomial.length_encode, hpolys q hq]
  -- The body is one more polynomial behind the list of the others.
  have hmaskSize : (encode c.mask).length = 8 + p.k * (8 + 4 * p.degree) := by
    rw [length_encode_list fun q hq => hpoly q (by simp [hq]), hmask]
  have hparts : (encode c).length = (encode c.mask).length + (encode c.body).length :=
    length_encode_pair c.mask c.body
  rw [hparts, hmaskSize, hpoly c.body (by simp)]
  ring

theorem GgswSample.length_encode {c : GgswSample} (h : c.checkShape p = .ok ()) :
    (encode c).length =
      8 + (p.k + 1) * p.pbsLevel.toNat * (8 + (p.k + 1) * (8 + 4 * p.degree)) := by
  rcases checkShape_eq_ok_iff.1 h with ⟨hlength, hrows⟩
  rw [hlength]
  exact length_encode_list fun row hrow => GlweSample.length_encode (hrows row hrow)

theorem KeySwitchingKey.length_encode {k : KeySwitchingKey} (h : k.checkShape p = .ok ()) :
    (encode k).length = 8 + p.k * p.degree * p.ksLevel.toNat * (12 + 4 * p.n) := by
  rcases checkShape_eq_ok_iff.1 h with ⟨hlength, hdimension⟩
  rw [hlength]
  refine length_encode_list fun c hc => ?_
  rw [LweSample.length_encode, hdimension c hc]

end Parts

/-! ## Public objects -/

/-- The header takes eight bytes. -/
theorem Buffer.length_serialize {α : Type} [WireObject α] (a : α) :
    (serialize a).length = 8 + (encode a).length := by
  have hheader : (header (WireObject.kind α)).length = 8 := by
    cases WireObject.kind α <;> rfl
  rw [serialize, List.length_append, hheader]

open Buffer

theorem Parameters.length_serialize (p : Parameters) : (serialize p).length = 80 := by
  rw [Buffer.length_serialize, length_encode_parameters]

theorem Ciphertext.length_serialize {c : Ciphertext} (h : c.checkShape = .ok ()) :
    (serialize c).length = 28 + 4 * c.lweDimension.toNat := by
  rcases checkShape_eq_ok_iff.1 h with ⟨-, hdimension⟩
  have hparts : (encode c).length = (encode c.lweDimension).length + (encode c.sample).length :=
    length_encode_pair c.lweDimension c.sample
  rw [Buffer.length_serialize, hparts, length_encode_word64, LweSample.length_encode, hdimension]
  omega

theorem CompressedCiphertext.length_serialize (c : CompressedCiphertext) :
    (serialize c).length = 52 := by
  have hparts : (encode c).length = (encode c.lweDimension).length + (encode c.sample).length :=
    length_encode_pair c.lweDimension c.sample
  rw [Buffer.length_serialize, hparts, length_encode_word64, SeededSample.length_encode]

theorem ServerKey.length_serialize {k : ServerKey} (h : k.checkShape = .ok ()) :
    (serialize k).length =
      96 + k.params.n * (8 + (k.params.k + 1) * k.params.pbsLevel.toNat *
        (8 + (k.params.k + 1) * (8 + 4 * k.params.degree))) +
        k.params.k * k.params.degree * k.params.ksLevel.toNat * (12 + 4 * k.params.n) := by
  rcases checkShape_eq_ok_iff.1 h with ⟨-, hlength, hggsw, hks⟩
  -- There is one encryption for each entry of the key, and all have one size.
  have hbootstrapping := length_encode_list fun c hc => GgswSample.length_encode (hggsw c hc)
  have hparts : (encode k).length = (encode k.bootstrappingKey).length +
      ((encode k.keySwitchingKey).length + (encode k.params).length) := by
    have hlast := length_encode_pair k.keySwitchingKey k.params
    exact (length_encode_pair k.bootstrappingKey (k.keySwitchingKey, k.params)).trans
      (congrArg _ hlast)
  rw [Buffer.length_serialize, hparts, hbootstrapping, KeySwitchingKey.length_encode hks,
    length_encode_parameters, ← hlength]
  ring

/-- Below the bound on dimensions the number of encryptions of zero is not cut off. -/
theorem publicKeySize_eq {p : Parameters} (h : p.Valid) :
    publicKeySize p.n = 32 * (p.n + 1) + 128 := by
  have hn : p.n ≤ 65536 := h.lweDimension.2
  have hlimit : UInt64.size - 1 = 2 ^ 64 - 1 := rfl
  rw [publicKeySize, hlimit]
  omega

theorem PublicKey.length_serialize {k : PublicKey} (h : k.checkShape = .ok ()) :
    (serialize k).length =
      88 + (32 * (k.params.n + 1) + 128) * (12 + 4 * k.params.n) := by
  rcases checkShape_eq_ok_iff.1 h with ⟨hvalid, hlength, hdimension⟩
  have hzeros : (encode k.zeros).length = 8 + k.zeros.length * (12 + 4 * k.params.n) := by
    refine length_encode_list fun c hc => ?_
    rw [LweSample.length_encode, hdimension c hc]
  have hparts : (encode k).length = (encode k.zeros).length + (encode k.params).length :=
    length_encode_pair k.zeros k.params
  rw [Buffer.length_serialize, hparts, hzeros, length_encode_parameters, ← hlength,
    publicKeySize_eq hvalid]
  ring

theorem CompressedPublicKey.length_serialize {k : CompressedPublicKey}
    (h : k.checkShape = .ok ()) :
    (serialize k).length = 120 + 4 * (32 * (k.params.n + 1) + 128) := by
  rcases checkShape_eq_ok_iff.1 h with ⟨hvalid, hlength⟩
  have hbodies : (encode k.bodies).length = 8 + 4 * k.bodies.length :=
    TorusVec.length_encode k.bodies
  have hparts : (encode k).length =
      (encode k.seed).length + ((encode k.bodies).length + (encode k.params).length) := by
    have hlast := length_encode_pair k.bodies k.params
    exact (length_encode_pair k.seed (k.bodies, k.params)).trans (congrArg _ hlast)
  rw [Buffer.length_serialize, hparts, length_encode_seed, hbodies, length_encode_parameters,
    ← hlength, publicKeySize_eq hvalid]
  omega

/-! ## Expansion -/

/-- Expansion pays off in size only up to six entries of a mask. -/
theorem CompressedCiphertext.length_serialize_lt_iff {c : CompressedCiphertext}
    (h : c.checkShape = .ok ()) :
    (serialize c).length < (serialize c.decompress).length ↔ 6 < c.lweDimension.toNat := by
  have hexpanded := Ciphertext.length_serialize (usable_of_checkShape h).decompress.1
  rw [length_serialize, hexpanded, lweDimension_decompress]
  omega

theorem CompressedPublicKey.length_serialize_lt {k : CompressedPublicKey}
    (h : k.checkShape = .ok ()) :
    (serialize k).length < (serialize k.decompress).length := by
  let zeros := 32 * (k.params.n + 1) + 128
  have hexpanded : (serialize k.decompress).length = 88 + zeros * (12 + 4 * k.params.n) :=
    PublicKey.length_serialize (checkShape_decompress h)
  -- Twelve bytes of every sample are there whatever the dimension.
  have hsamples : zeros * 12 ≤ zeros * (12 + 4 * k.params.n) :=
    Nat.mul_le_mul_left _ (Nat.le_add_right _ _)
  rw [length_serialize h, hexpanded]
  omega

/-! ## All kinds of objects -/

/-- The sizes of the buffers of all objects of an instance.  Compressed public keys are smaller than
their expansions, compressed ciphertexts exactly above dimension six. -/
theorem Buffer.length_serialize_of_checkShape (p : Parameters) :
    let zeros := 32 * (p.n + 1) + 128
    (serialize p).length = 80 ∧
    (∀ c : Ciphertext, c.checkShape = .ok () → c.lweDimension.toNat = p.n →
      (serialize c).length = 28 + 4 * p.n) ∧
    (∀ c : CompressedCiphertext, c.checkShape = .ok () → c.lweDimension.toNat = p.n →
      (serialize c).length = 52 ∧
        ((serialize c).length < (serialize c.decompress).length ↔ 6 < p.n)) ∧
    (∀ k : CompressedPublicKey, k.checkShape = .ok () → k.params = p →
      (serialize k).length = 120 + 4 * zeros ∧
        (serialize k).length < (serialize k.decompress).length) ∧
    (∀ k : PublicKey, k.checkShape = .ok () → k.params = p →
      (serialize k).length = 88 + zeros * (12 + 4 * p.n)) ∧
    (∀ k : ServerKey, k.checkShape = .ok () → k.params = p →
      (serialize k).length =
        96 + p.n * (8 + (p.k + 1) * p.pbsLevel.toNat * (8 + (p.k + 1) * (8 + 4 * p.degree))) +
          p.k * p.degree * p.ksLevel.toNat * (12 + 4 * p.n)) := by
  intro zeros
  refine ⟨p.length_serialize, ?_, ?_, ?_, ?_, ?_⟩
  · intro c h hn
    rw [← hn]
    exact Ciphertext.length_serialize h
  · intro c h hn
    rw [← hn]
    exact ⟨c.length_serialize, CompressedCiphertext.length_serialize_lt_iff h⟩
  · rintro k h rfl
    exact ⟨CompressedPublicKey.length_serialize h, CompressedPublicKey.length_serialize_lt h⟩
  · rintro k h rfl
    exact PublicKey.length_serialize h
  · rintro k h rfl
    exact ServerKey.length_serialize h

/-- Ciphertexts on both sides of the bound, and the server key of dimension one. -/
theorem Buffer.length_serialize_of_checkShape_smallest :
    let p : Parameters :=
      ⟨1, 1, 2, ⟨0x3f50000000000000⟩, ⟨0x3f40000000000000⟩, 4, 1, 3, 1⟩
    let seed : Seed := ⟨List.replicate 32 7, by simp⟩
    let short : CompressedCiphertext := ⟨6, ⟨seed, ⟨9⟩⟩⟩
    let long : CompressedCiphertext := ⟨7, ⟨seed, ⟨9⟩⟩⟩
    let row : GlweSample := ⟨[⟨[⟨5⟩, ⟨0xffffffff⟩]⟩], ⟨[⟨0x20000000⟩, ⟨7⟩]⟩⟩
    let k : ServerKey := ⟨[⟨[row, row]⟩], ⟨[⟨[⟨9⟩], ⟨11⟩⟩, ⟨[⟨13⟩], ⟨0x80000000⟩⟩]⟩, p⟩
    short.checkShape = .ok () ∧ ¬(serialize short).length < (serialize short.decompress).length ∧
      long.checkShape = .ok () ∧ (serialize long).length < (serialize long.decompress).length ∧
      k.checkShape = .ok () ∧ (serialize k).length = 216 := by
  intro p seed short long row k
  have hvalid : p.Valid := by decide +kernel
  have hshort : short.checkShape = .ok () := rfl
  have hlong : long.checkShape = .ok () := rfl
  have hkey : k.checkShape = .ok () := by
    rw [ServerKey.checkShape, Parameters.checkShape_eq_ok_iff.2 hvalid]
    rfl
  -- The sizes of ciphertexts depend on the dimension only, which other parameters may share.
  have hsix := (length_serialize_of_checkShape { p with lweDimension := 6 }).2.2.1 short hshort rfl
  have hseven := (length_serialize_of_checkShape { p with lweDimension := 7 }).2.2.1 long hlong rfl
  have hserver := (length_serialize_of_checkShape p).2.2.2.2.2 k hkey rfl
  refine ⟨hshort, ?_, hlong, hseven.2.2 (by decide), hkey, hserver⟩
  intro hlt
  exact absurd (hsix.2.1 hlt) (by decide)

end TorusFHE
