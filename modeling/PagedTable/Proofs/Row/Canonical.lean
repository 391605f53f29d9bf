import Mathlib.Data.List.DropRight
import PagedTable.Proofs.Row.Codec

/-!
# What bytes are a row

Encoding and decoding against each other, from both ends. The zero bytes at the end of a body are
padding, so decoding never looks at how many there are. A zero byte before them is a character of
the text: such a payload is read, but the row that it gives cannot be written again.

* `Utf8.WellFormed`: bytes that are those of some characters; `Utf8.decode_eq_ok_iff`: the text is
  the only one that has these bytes.
* `Utf8.zero_mem_encode_iff`: only the character NUL puts a zero byte into a text.
* `Row.decode_eq_ok_iff`: what a row says of the bytes that it is decoded from.
* `Row.encode_decoded`: what encoding makes of a row that was decoded.
* `Row.codec_inverse`: the two directions together.
-/

namespace PagedTable

namespace Utf8

/-- The bytes are those of characters one after another. -/
def WellFormed (bytes : List UInt8) : Prop :=
  ∃ text : List Char, bytes = text.flatMap String.utf8EncodeChar

/-- The bytes of a text are those of its characters. -/
theorem encode_eq (text : String) : encode text = text.toList.flatMap String.utf8EncodeChar := by
  rw [encode, String.toUTF8, ← String.utf8Encode_toList, List.utf8Encode, List.data_toByteArray]

theorem length_encode (text : String) : (encode text).length = text.utf8ByteSize := rfl

/-- **The text of some bytes** is the one that has these bytes. -/
theorem decode_eq_ok_iff {bytes : List UInt8} {text : String} :
    decode bytes = .ok text ↔ encode text = bytes := by
  constructor
  · intro h
    unfold decode at h
    split at h
    · next htext =>
      rw [String.fromUTF8?, Option.dite_none_right_eq_some] at htext
      obtain ⟨hvalid, htext⟩ := htext
      rw [← Except.ok.inj h, ← Option.some.inj htext]
      rfl
    · cases h
  · rintro rfl
    exact decode_encode text

/-- Bytes are well-formed exactly if they are decoded. -/
theorem wellFormed_iff {bytes : List UInt8} :
    WellFormed bytes ↔ ∃ text, decode bytes = .ok text := by
  constructor
  · rintro ⟨text, rfl⟩
    refine ⟨String.ofList text, decode_eq_ok_iff.mpr ?_⟩
    rw [encode_eq, String.toList_ofList]
  · rintro ⟨text, h⟩
    exact ⟨text.toList, by rw [← decode_eq_ok_iff.mp h, encode_eq]⟩

/-- A character has a zero byte only if it is NUL. -/
theorem zero_mem_encodeChar_iff (c : Char) : 0 ∈ String.utf8EncodeChar c ↔ c = '\x00' := by
  rw [← Char.val_inj, ← UInt32.toNat_inj]
  fun_cases String.utf8EncodeChar c
  all_goals
    simp only [List.mem_cons, List.not_mem_nil, or_false, ← UInt8.toNat_inj, UInt8.toNat_ofNat',
      show (0 : UInt8).toNat = 0 from rfl, show '\x00'.val.toNat = 0 from rfl]
    omega

/-- **A text has a zero byte** exactly if it has the character NUL. -/
theorem zero_mem_encode_iff (text : String) : 0 ∈ encode text ↔ '\x00' ∈ text.toList := by
  simp only [encode_eq, List.mem_flatMap, zero_mem_encodeChar_iff, exists_eq_right]

end Utf8

namespace Row

/-- The bytes of the body in an encoded row, without the zero bytes at their end. -/
def unpadded (data : Array UInt8) : List UInt8 := (data.toList.drop idWidth).rdropWhile (· == 0)

variable {row : Row} {value : Payload} {data : Array UInt8}

/-- Rows fit whose bodies have no more bytes than there is room for, and no NUL. -/
theorem fits_iff (row : Row) :
    row.Fits ↔ row.body.utf8ByteSize ≤ bodyWidth ∧ '\x00' ∉ row.body.toList := by
  rw [Fits, Utf8.length_encode, Utf8.zero_mem_encode_iff]

/-- A row that fits is encoded. -/
theorem exists_encode (h : row.Fits) : ∃ value, row.encode = .ok value := by
  rcases row.encode_eq with ⟨hok, -⟩ | ⟨-, hlarge⟩ | ⟨-, hnul⟩
  · exact ⟨_, hok⟩
  · exact absurd h.1 (Nat.not_le_of_lt hlarge)
  · exact absurd hnul h.2

/-- A body is its unpadded bytes, and zero bytes up to its width. -/
theorem unpadded_append_zeros (hsize : data.size = rowWidth) :
    (unpadded data).length ≤ bodyWidth ∧
      unpadded data ++ List.replicate (bodyWidth - (unpadded data).length) 0 =
        data.toList.drop idWidth := by
  have hsplit : unpadded data ++ (data.toList.drop idWidth).rtakeWhile (· == 0) =
      data.toList.drop idWidth := List.rdropWhile_append_rtakeWhile
  have hwidth : (data.toList.drop idWidth).length = bodyWidth := by
    rw [List.length_drop, Array.length_toList, hsize]
    rfl
  have hlen := congrArg List.length hsplit
  rw [List.length_append, hwidth] at hlen
  have hzeros : (data.toList.drop idWidth).rtakeWhile (· == 0) =
      List.replicate (bodyWidth - (unpadded data).length) 0 := by
    refine List.eq_replicate_iff.mpr ⟨by omega, fun b hb => ?_⟩
    have hzero : (b == 0) = true := List.mem_rtakeWhile_imp (p := (· == 0)) hb
    exact eq_of_beq hzero
  exact ⟨by omega, by rw [← hzeros, hsplit]⟩

/-- The first bytes of a payload are those of the id that it is read as. -/
theorem take_idWidth (value : Payload) :
    value.toList.take idWidth = wordBytes (wordOfBytes value[0] value[1] value[2] value[3]) := by
  rw [wordBytes_wordOfBytes]
  refine List.ext_getElem ?_ fun i h₁ h₂ => ?_
  · rw [List.length_take, Vector.length_toList]
    rfl
  · rw [List.getElem_take, Vector.getElem_toList]
    match i, h₂ with
    | 0, _ | 1, _ | 2, _ | 3, _ => rfl

theorem decodePayload_eq_ok_iff :
    decodePayload value = .ok row ↔ value.toList.take idWidth = wordBytes row.id ∧
      stripZeros (value.toList.drop idWidth) = Utf8.encode row.body := by
  rw [take_idWidth, wordBytes_inj, eq_comm (b := Utf8.encode row.body), ← Utf8.decode_eq_ok_iff]
  unfold decodePayload
  dsimp only
  cases Utf8.decode (stripZeros (value.toList.drop idWidth)) with
  | ok body =>
    cases row
    rw [Except.ok.injEq, Except.ok.injEq, mk.injEq]
  | error flaw => exact iff_of_false nofun fun h => nomatch h.2

/-- **What a row says of its bytes**: they are its id, and its body once the zero bytes at the end
are off. -/
theorem decode_eq_ok_iff :
    decode data = .ok row ↔ data.size = rowWidth ∧ data.toList.take idWidth = wordBytes row.id ∧
      unpadded data = Utf8.encode row.body := by
  unfold decode
  split
  · next hsize =>
    rw [decodePayload_eq_ok_iff]
    exact (and_iff_right hsize).symm
  · next hsize => exact iff_of_false nofun fun h => hsize h.1

/-- Data is a row exactly if it has a row's width and the unpadded body is well-formed. -/
theorem exists_decode_iff :
    (∃ row, decode data = .ok row) ↔ data.size = rowWidth ∧ Utf8.WellFormed (unpadded data) := by
  simp only [decode_eq_ok_iff, Utf8.wellFormed_iff, Utf8.decode_eq_ok_iff]
  constructor
  · rintro ⟨row, hsize, -, hbody⟩
    exact ⟨hsize, row.body, hbody.symm⟩
  · rintro ⟨hsize, body, hbody⟩
    refine ⟨⟨_, body⟩, hsize, take_idWidth ⟨data, hsize⟩, hbody.symm⟩

/-- **What encoding makes of a decoded row**: the bytes that it was decoded from, unless a zero
byte stands within its body. -/
theorem encode_decoded (h : decode data = .ok row) :
    (0 ∉ unpadded data → ∃ value, row.encode = .ok value ∧ value.toArray = data) ∧
    (0 ∈ unpadded data → row.encode = .error (.invalidRow (.nul row.id))) := by
  obtain ⟨hsize, hid, hbody⟩ := decode_eq_ok_iff.mp h
  obtain ⟨hlen, hpadded⟩ := unpadded_append_zeros hsize
  rcases row.encode_eq with ⟨hok, -, hnul⟩ | ⟨-, hlarge⟩ | ⟨herr, hnul⟩
  · refine ⟨fun _ => ⟨_, hok, Array.toList_inj.mp ?_⟩, fun hzero => absurd (hbody ▸ hzero) hnul⟩
    rw [← Vector.toList, toList_of_encode hok, ← hbody, hpadded, ← hid, List.take_append_drop]
  · rw [← hbody] at hlarge
    omega
  · exact ⟨fun hzero => absurd (hbody ▸ hnul) hzero, fun _ => herr⟩

/-- **The codec in both directions**: a row is encoded exactly if its body has at most `bodyWidth`
bytes and no NUL, and is then decoded as it was. Data is decoded exactly if it is `rowWidth` bytes
long and its unpadded body is well-formed. A row that was decoded is encoded to the same data if
no zero byte stands in the unpadded body, and is refused otherwise. -/
theorem codec_inverse :
    (∀ row : Row,
      ((∃ value, row.encode = .ok value) ↔
        row.body.utf8ByteSize ≤ bodyWidth ∧ '\x00' ∉ row.body.toList) ∧
      ∀ value, row.encode = .ok value → decode value.toArray = .ok row) ∧
    (∀ data : Array UInt8,
      (∃ row, decode data = .ok row) ↔
        data.size = rowWidth ∧ Utf8.WellFormed (unpadded data)) ∧
    (∀ (data : Array UInt8) (row : Row), decode data = .ok row →
      (0 ∉ unpadded data → ∃ value, row.encode = .ok value ∧ value.toArray = data) ∧
      (0 ∈ unpadded data → row.encode = .error (.invalidRow (.nul row.id)))) := by
  refine ⟨fun row => ⟨?_, fun value h => ?_⟩, fun data => exists_decode_iff,
    fun data row h => encode_decoded h⟩
  · rw [← fits_iff]
    exact ⟨fun ⟨value, h⟩ => (fits_of_encode h).2, exists_encode⟩
  · have hsize : value.toArray.size = rowWidth := value.size_toArray
    rw [decode, dif_pos hsize]
    exact decodePayload_of_encode h

/-- A payload with a zero byte between two letters is a row that cannot be encoded again; without
the zero byte it can. -/
theorem codec_inverse_interior_zero :
    (decode (#[7, 0, 0, 0, 97, 0, 98] ++ Array.replicate 57 0) = .ok ⟨7, "a\x00b"⟩ ∧
      encode ⟨7, "a\x00b"⟩ = .error (.invalidRow (.nul 7))) ∧
    (decode (#[7, 0, 0, 0, 97, 98] ++ Array.replicate 58 0) = .ok ⟨7, "ab"⟩ ∧
      ∃ value, encode ⟨7, "ab"⟩ = .ok value ∧
        value.toArray = #[7, 0, 0, 0, 97, 98] ++ Array.replicate 58 0) := by
  have hzero : decode (#[7, 0, 0, 0, 97, 0, 98] ++ Array.replicate 57 0) = .ok ⟨7, "a\x00b"⟩ :=
    decode_eq_ok_iff.mpr ⟨rfl, rfl, by decide⟩
  have hplain : decode (#[7, 0, 0, 0, 97, 98] ++ Array.replicate 58 0) = .ok ⟨7, "ab"⟩ :=
    decode_eq_ok_iff.mpr ⟨rfl, rfl, by decide⟩
  exact ⟨⟨hzero, (codec_inverse.2.2 _ _ hzero).2 (by decide)⟩,
    hplain, (codec_inverse.2.2 _ _ hplain).1 (by decide)⟩

end Row

end PagedTable
