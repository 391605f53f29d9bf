import PagedTable.Page.Lemmas
import PagedTable.Row

/-!
# Encoding rows

A row that is encoded is read back as it was: no zero byte of its body is taken for padding, since
a body with one is not encoded.

* `Utf8.decode_encode`: a text is read back from its bytes.
* `Row.Fits`: the rows that can be stored.
* `Row.encode_eq`: which rows are encoded, and why others are refused.
* `Row.decodePayload_of_encode`: a row is read back from its payload.
-/

namespace PagedTable

/-- **A text is read back** from its bytes. -/
theorem Utf8.decode_encode (text : String) : Utf8.decode (Utf8.encode text) = .ok text := by
  have hvalid : text.toByteArray.IsValidUTF8 := text.isValidUTF8
  have hbytes : (⟨(Utf8.encode text).toArray⟩ : ByteArray) = text.toByteArray := rfl
  unfold Utf8.decode
  rw [hbytes, String.fromUTF8?, dif_pos hvalid]
  rfl

/-- Bytes are no text if the first one begins no character. -/
theorem Utf8.decode_of_not_first {b : UInt8} (hb : ¬ b.IsUTF8FirstByte) (bytes : List UInt8) :
    ∃ flaw, Utf8.decode (b :: bytes) = .error flaw := by
  have hvalid : ¬ (⟨(b :: bytes).toArray⟩ : ByteArray).IsValidUTF8 := fun h =>
    hb (h.isUTF8FirstByte_getElem_zero (Nat.succ_pos bytes.length))
  unfold Utf8.decode
  rw [String.fromUTF8?, dif_neg hvalid]
  exact ⟨_, rfl⟩

namespace Row

/-- The body is no longer than a row has room for, and has no zero byte. -/
def Fits (row : Row) : Prop :=
  (Utf8.encode row.body).length ≤ bodyWidth ∧ 0 ∉ Utf8.encode row.body

instance (row : Row) : Decidable row.Fits := inferInstanceAs (Decidable (_ ∧ _))

variable {row : Row} {value : Payload}

/-- Rows whose bodies fit and hold no zero byte are encoded. -/
theorem encode_eq (row : Row) :
    (row.encode = .ok (Vector.ofFn fun i => row.bytes.toArray.getD i 0) ∧ row.Fits) ∨
    (row.encode = .error (.rowTooLarge (Utf8.encode row.body).length) ∧
      bodyWidth < (Utf8.encode row.body).length) ∨
    (row.encode = .error (.invalidRow (.nul row.id)) ∧ 0 ∈ Utf8.encode row.body) := by
  unfold encode
  dsimp only
  by_cases hlen : bodyWidth < (Utf8.encode row.body).length
  · rw [if_pos hlen]
    exact .inr (.inl ⟨rfl, hlen⟩)
  · rw [if_neg hlen]
    by_cases hnul : 0 ∈ Utf8.encode row.body
    · rw [if_pos hnul]
      exact .inr (.inr ⟨rfl, hnul⟩)
    · rw [if_neg hnul]
      exact .inl ⟨rfl, Nat.le_of_not_lt hlen, hnul⟩

/-- What is known of a row that is encoded. -/
theorem fits_of_encode (h : row.encode = .ok value) :
    value = Vector.ofFn (fun i => row.bytes.toArray.getD i 0) ∧ row.Fits := by
  rcases row.encode_eq with ⟨hok, hfits⟩ | ⟨herr, -⟩ | ⟨herr, -⟩
  · exact ⟨Except.ok.inj (h.symm.trans hok), hfits⟩
  · cases h.symm.trans herr
  · cases h.symm.trans herr

/-- Zero bytes at the end are taken off, and no others. -/
theorem stripZeros_append (bytes : List UInt8) (n : Nat) (h : 0 ∉ bytes) :
    stripZeros (bytes ++ List.replicate n 0) = bytes := by
  have hkeep : bytes.reverse.dropWhile (· == 0) = bytes.reverse := by
    cases hrev : bytes.reverse with
    | nil => rfl
    | cons b rest =>
      have hb : b ≠ 0 := by
        rintro rfl
        exact h (List.mem_reverse.mp (hrev ▸ List.mem_cons_self))
      rw [List.dropWhile_cons_of_neg (by simpa using hb)]
  rw [stripZeros, List.reverse_append, List.reverse_replicate, List.dropWhile_append_of_pos,
    hkeep, List.reverse_reverse]
  intro b hb
  simp [List.eq_of_mem_replicate hb]

/-- The bytes of an encoded row: the id, the body, and zero bytes. -/
theorem toList_of_encode (h : row.encode = .ok value) :
    value.toList = wordBytes row.id ++ (Utf8.encode row.body ++
      List.replicate (bodyWidth - (Utf8.encode row.body).length) 0) := by
  obtain ⟨hvalue, hlen, -⟩ := fits_of_encode h
  have hbytes : row.bytes.length = idWidth + (Utf8.encode row.body).length := by
    rw [bytes, List.length_append, length_wordBytes]
  rw [← List.append_assoc, ← bytes]
  refine List.ext_getElem ?_ fun i h₁ h₂ => ?_
  · have hwidth : rowWidth = idWidth + bodyWidth := rfl
    rw [Vector.length_toList, List.length_append, hbytes, List.length_replicate]
    omega
  · rw [Vector.getElem_toList]
    simp only [hvalue, Vector.getElem_ofFn, Array.getD_eq_getD_getElem?, List.getElem?_toArray]
    by_cases hi : i < row.bytes.length
    · rw [List.getElem_append_left hi, List.getElem?_eq_getElem hi]
      rfl
    · rw [List.getElem_append_right (Nat.le_of_not_lt hi), List.getElem_replicate,
        List.getElem?_eq_none (Nat.le_of_not_lt hi)]
      rfl

/-- **A row is read back** from its payload. -/
theorem decodePayload_of_encode (h : row.encode = .ok value) : decodePayload value = .ok row := by
  have hlist := toList_of_encode h
  have hid : ∀ i (hi : i < rowWidth) (hw : i < 4),
      value[i] = (wordBytes row.id).get ⟨i, hw⟩ := by
    intro i hi hw
    rw [← Vector.getElem_toList (by rwa [Vector.length_toList])]
    simp only [hlist]
    exact List.getElem_append_left hw
  have hbody : stripZeros (value.toList.drop idWidth) = Utf8.encode row.body := by
    rw [hlist, List.drop_left' (length_wordBytes row.id)]
    exact stripZeros_append _ _ (fits_of_encode h).2.2
  have hword : wordOfBytes value[0] value[1] value[2] value[3] = row.id := by
    rw [hid 0 (by decide) (by decide), hid 1 (by decide) (by decide),
      hid 2 (by decide) (by decide), hid 3 (by decide) (by decide)]
    exact wordOfBytes_wordBytes row.id
  unfold decodePayload
  dsimp only
  rw [hbody, Utf8.decode_encode, hword]

end Row

end PagedTable
