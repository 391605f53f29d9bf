import Mathlib.Data.List.TakeWhile
import PagedTable.Text.Blank

/-!
# Words

* `wordsAfter_append`, `words_blank`: where a word begins and ends.
* `words_trim`: blanks at the ends do not matter.
-/

namespace PagedTable

variable {begun w cs : List Char} {c : Char}

/-- A word: some characters, and no blank among them. -/
def IsWord (w : List Char) : Prop := w ≠ [] ∧ ∀ c ∈ w, isBlank c = false

/-! ## Where words begin and end -/

/-- Characters that are no blanks go on with the word. -/
theorem wordsAfter_append (hw : ∀ c ∈ w, isBlank c = false) :
    wordsAfter begun (w ++ cs) = wordsAfter (w.reverse ++ begun) cs := by
  induction w generalizing begun with
  | nil => rfl
  | cons c w ih =>
    obtain ⟨hc, hw⟩ := List.forall_mem_cons.mp hw
    rw [List.cons_append, wordsAfter, if_neg (by rw [hc]; exact Bool.false_ne_true), ih hw,
      List.reverse_cons, List.append_assoc, List.singleton_append]

/-- A blank before a word is passed over. -/
theorem words_blank (hc : isBlank c = true) : words (c :: cs) = words cs := by
  rw [words, wordsAfter, if_pos hc]
  rfl

/-- A blank ends a word. -/
theorem words_append_blank (hw : IsWord w) (hc : isBlank c = true) :
    words (w ++ c :: cs) = w :: words cs := by
  have hbegun : ¬ w.reverse.isEmpty = true := by simpa using hw.1
  rw [words, wordsAfter_append hw.2, List.append_nil, wordsAfter, if_pos hc, if_neg hbegun,
    List.reverse_reverse]
  rfl

/-! ## Blanks at the ends -/

theorem words_dropWhile (cs : List Char) : words (cs.dropWhile isBlank) = words cs := by
  induction cs with
  | nil => rfl
  | cons c cs ih =>
    by_cases hc : isBlank c = true
    · rw [List.dropWhile_cons_of_pos hc, ih, words_blank hc]
    · rw [List.dropWhile_cons_of_neg hc]

/-- Blanks behind the last word. -/
theorem wordsAfter_append_blanks {gap : List Char} (hgap : ∀ c ∈ gap, isBlank c = true) :
    wordsAfter begun (cs ++ gap) = wordsAfter begun cs := by
  induction cs generalizing begun with
  | nil =>
    induction gap generalizing begun with
    | nil => rfl
    | cons c gap ih =>
      obtain ⟨hc, hgap⟩ := List.forall_mem_cons.mp hgap
      have hrest : wordsAfter [] gap = [] := ih hgap
      rw [List.nil_append, wordsAfter, wordsAfter, if_pos hc, hrest]
  | cons c cs ih => simp only [List.cons_append, wordsAfter, ih]

/-- **Trimming** leaves the words. -/
theorem words_trim (cs : List Char) : words (trim cs) = words cs := by
  have hends : trim cs ++ ((cs.dropWhile isBlank).reverse.takeWhile isBlank).reverse =
      cs.dropWhile isBlank := by
    rw [trim, ← List.reverse_append, List.takeWhile_append_dropWhile, List.reverse_reverse]
  have hgap : ∀ c ∈ ((cs.dropWhile isBlank).reverse.takeWhile isBlank).reverse,
      isBlank c = true := fun c hc =>
    List.mem_takeWhile_imp (List.mem_reverse.mp hc)
  rw [← words_dropWhile cs, ← hends]
  exact (wordsAfter_append_blanks hgap).symm

end PagedTable
