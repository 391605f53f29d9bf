import PagedTable.Page

/-!
# Lemmas about pages as bytes

A page is known by its bytes (`Page.ext_byte`), so an operation is known by the bytes it leaves.

* `Page.byte_overlay`: an overlay changes the bytes it covers and no others.
* `Page.slice_overlay`, `Page.slice_overlay_of_disjoint`: reading back what was written, and what
  was left alone.
* `wordOfBytes_wordBytes`: a 32-bit number is read back from its bytes.
-/

namespace PagedTable

theorem wordOfBytes_wordBytes (w : UInt32) :
    wordOfBytes (UInt8.ofNat w.toNat) (UInt8.ofNat (w.toNat / 256))
      (UInt8.ofNat (w.toNat / 65536)) (UInt8.ofNat (w.toNat / 16777216)) = w := by
  have := w.toNat_lt
  apply UInt32.toNat_inj.mp
  simp only [wordOfBytes, UInt8.toNat_ofNat', UInt32.toNat_ofNat']
  omega

theorem wordBytes_wordOfBytes (b₀ b₁ b₂ b₃ : UInt8) :
    wordBytes (wordOfBytes b₀ b₁ b₂ b₃) = [b₀, b₁, b₂, b₃] := by
  have h₀ := b₀.toNat_lt
  have h₁ := b₁.toNat_lt
  have h₂ := b₂.toNat_lt
  have h₃ := b₃.toNat_lt
  have hw : (wordOfBytes b₀ b₁ b₂ b₃).toNat =
      b₀.toNat + 256 * (b₁.toNat + 256 * (b₂.toNat + 256 * b₃.toNat)) := by
    rw [wordOfBytes, UInt32.toNat_ofNat']
    omega
  simp only [wordBytes, hw, List.cons.injEq, and_true]
  refine ⟨?_, ?_, ?_, ?_⟩ <;> apply UInt8.toNat_inj.mp <;> rw [UInt8.toNat_ofNat'] <;> omega

theorem wordBytes_inj {v w : UInt32} : wordBytes v = wordBytes w ↔ v = w := by
  constructor
  · intro h
    simp only [wordBytes, List.cons.injEq, and_true] at h
    rw [← wordOfBytes_wordBytes v, ← wordOfBytes_wordBytes w, h.1, h.2.1, h.2.2.1, h.2.2.2]
  · rintro rfl
    rfl

namespace Page

/-! ## Bytes -/

theorem byte_eq_getElem (p : Page) {i : Nat} (h : i < pageSize) : p.byte i = p[i] := by
  simp [byte, h]

theorem byte_of_le (p : Page) {i : Nat} (h : pageSize ≤ i) : p.byte i = 0 := by
  simp [byte, h]

/-- A page is known by its bytes. -/
theorem ext_byte {p q : Page} (h : ∀ i, i < pageSize → p.byte i = q.byte i) : p = q := by
  apply Vector.ext
  intro i hi
  rw [← byte_eq_getElem p hi, ← byte_eq_getElem q hi, h i hi]

@[simp] theorem byte_zero (i : Nat) : zero.byte i = 0 := by
  by_cases h : i < pageSize
  · rw [byte_eq_getElem _ h]
    simp [zero]
  · exact byte_of_le _ (by omega)

theorem byte_setIfInBounds (p : Page) (j i : Nat) (b : UInt8) :
    (byte (p.setIfInBounds j b) i) = if j = i ∧ i < pageSize then b else p.byte i := by
  by_cases h : i < pageSize
  · rw [byte_eq_getElem _ h, byte_eq_getElem _ h, Vector.getElem_setIfInBounds]
    simp [h]
  · rw [byte_of_le _ (by omega), byte_of_le _ (by omega)]
    simp [h]

theorem byte_ofBytesAt (bytes : Array UInt8) (off : Nat) {i : Nat} (h : i < pageSize) :
    (ofBytesAt bytes off).byte i = bytes.getD (off + i) 0 := by
  rw [byte_eq_getElem _ h]
  simp [ofBytesAt]

/-- The only page of a file. -/
theorem ofBytesAt_toArray (p : Page) : ofBytesAt p.toArray 0 = p := by
  refine ext_byte fun i hi => ?_
  rw [byte_ofBytesAt _ _ hi, Nat.zero_add, Array.getD_eq_getD_getElem?, Vector.getElem?_toArray]
  rfl

/-- **Overlays**: the bytes that an overlay covers are the new ones, all others stay. -/
theorem byte_overlay (p : Page) (off : Nat) (bs : List UInt8) {i : Nat} (h : i < pageSize) :
    (p.overlay off bs).byte i =
      if off ≤ i ∧ i < off + bs.length then bs.getD (i - off) 0 else p.byte i := by
  induction bs generalizing p off with
  | nil =>
    rw [if_neg (by simp only [List.length_nil]; omega)]
    rfl
  | cons b bs ih =>
    rw [overlay, ih, byte_setIfInBounds]
    by_cases hi : off = i
    · subst hi
      rw [if_neg (by omega), if_pos ⟨rfl, h⟩, if_pos (by simp only [List.length_cons]; omega)]
      simp
    · by_cases hc : off + 1 ≤ i ∧ i < off + 1 + bs.length
      · rw [if_pos hc, if_pos (by simp only [List.length_cons]; omega)]
        rw [show i - off = (i - (off + 1)) + 1 by omega, List.getD_cons_succ]
      · rw [if_neg hc, if_neg (by simp [hi]), if_neg (by simp only [List.length_cons]; omega)]

theorem byte_overlay_of_disjoint (p : Page) {off : Nat} {bs : List UInt8} {i : Nat}
    (h : i < off ∨ off + bs.length ≤ i) : (p.overlay off bs).byte i = p.byte i := by
  by_cases hi : i < pageSize
  · rw [byte_overlay _ _ _ hi, if_neg (by omega)]
  · rw [byte_of_le _ (by omega), byte_of_le _ (by omega)]

theorem byte_overlay_of_mem (p : Page) {off : Nat} {bs : List UInt8} {j : Nat}
    (hj : j < bs.length) (h : off + j < pageSize) :
    (p.overlay off bs).byte (off + j) = bs.getD j 0 := by
  rw [byte_overlay _ _ _ h, if_pos (by omega), Nat.add_sub_cancel_left]

/-! ## Slices -/

@[simp] theorem length_slice (p : Page) (off n : Nat) : (p.slice off n).length = n := by
  simp [slice]

theorem getD_slice (p : Page) (off : Nat) {n i : Nat} (h : i < n) :
    (p.slice off n).getD i 0 = p.byte (off + i) := by
  simp [slice, h]

theorem slice_add (p : Page) (off m n : Nat) :
    p.slice off (m + n) = p.slice off m ++ p.slice (off + m) n := by
  simp only [slice, List.range_add, List.map_append, List.map_map]
  congr 1
  apply List.map_congr_left
  intro i _
  simp [Nat.add_assoc]

theorem slice_congr {p q : Page} {off n : Nat}
    (h : ∀ i, i < n → p.byte (off + i) = q.byte (off + i)) : p.slice off n = q.slice off n := by
  apply List.map_congr_left
  intro i hi
  exact h i (List.mem_range.mp hi)

/-- What was written is read back. -/
theorem slice_overlay (p : Page) {off : Nat} {bs : List UInt8} (h : Within off bs.length) :
    (p.overlay off bs).slice off bs.length = bs := by
  apply List.ext_getElem (by simp)
  intro i hi hi'
  simp only [slice, List.getElem_map, List.getElem_range]
  rw [byte_overlay_of_mem _ hi' (by omega)]
  simp [hi']

/-- What was not written over stays. -/
theorem slice_overlay_of_disjoint (p : Page) {off : Nat} {bs : List UInt8} {off' n : Nat}
    (h : off' + n ≤ off ∨ off + bs.length ≤ off') :
    (p.overlay off bs).slice off' n = p.slice off' n :=
  slice_congr fun i hi => byte_overlay_of_disjoint _ (by omega)

/-- Bytes that were copied from one place to another are read back there. -/
theorem slice_overlay_slice (p q : Page) {src dst m k n : Nat} (hm : Within dst m)
    (hk : k + n ≤ m) : (p.overlay dst (q.slice src m)).slice (dst + k) n = q.slice (src + k) n := by
  apply List.map_congr_left
  intro i hi
  have hi := List.mem_range.mp hi
  rw [show dst + k + i = dst + (k + i) by omega, byte_overlay_of_mem _ (by simp; omega) (by omega),
    getD_slice _ _ (by omega), Nat.add_assoc]

/-! ## Words and payloads -/

theorem word_eq_of_slice {p : Page} {off : Nat} {w : UInt32} (h : p.slice off 4 = wordBytes w) :
    p.word off = w := by
  have hs : p.slice off 4 = [p.byte off, p.byte (off + 1), p.byte (off + 2), p.byte (off + 3)] :=
    rfl
  rw [hs] at h
  simp only [wordBytes, List.cons.injEq, and_true] at h
  rw [word, h.1, h.2.1, h.2.2.1, h.2.2.2, wordOfBytes_wordBytes]

theorem wordBytes_word (p : Page) (off : Nat) : wordBytes (p.word off) = p.slice off 4 := by
  rw [word, wordBytes_wordOfBytes]
  rfl

theorem word_congr {p q : Page} {off off' : Nat} (h : p.slice off 4 = q.slice off' 4) :
    p.word off = q.word off' :=
  word_eq_of_slice (by rw [h, wordBytes_word])

theorem word_setWord (p : Page) {off : Nat} (w : UInt32) (h : Within off 4) :
    (p.setWord off w).word off = w := by
  apply word_eq_of_slice
  have h : Within off (wordBytes w).length := h
  exact slice_overlay p h

theorem word_overlay_of_disjoint (p : Page) {off off' : Nat} {bs : List UInt8}
    (h : off' + 4 ≤ off ∨ off + bs.length ≤ off') : (p.overlay off bs).word off' = p.word off' :=
  word_congr (slice_overlay_of_disjoint p h)

theorem word_setWord_of_disjoint (p : Page) {off off' : Nat} (w : UInt32)
    (h : off' + 4 ≤ off ∨ off + 4 ≤ off') : (p.setWord off w).word off' = p.word off' :=
  word_overlay_of_disjoint p (by simpa using h)

theorem toList_payload (p : Page) (off : Nat) : (p.payload off).toList = p.slice off rowWidth := by
  apply List.ext_getElem
  · simp
  · intro i h₁ h₂
    simp [payload, slice]

theorem payload_eq_of_slice {p : Page} {off : Nat} {v : Payload}
    (h : p.slice off rowWidth = v.toList) : p.payload off = v := by
  apply Vector.toList_inj.mp
  rw [toList_payload, h]

/-! ## Reads within the page -/

theorem word?_eq {p : Page} {off : Nat} (h : Within off 4) : p.word? off = some (p.word off) :=
  if_pos h

theorem payload?_eq {p : Page} {off : Nat} (h : Within off rowWidth) :
    p.payload? off = some (p.payload off) :=
  if_pos h

end Page

end PagedTable
