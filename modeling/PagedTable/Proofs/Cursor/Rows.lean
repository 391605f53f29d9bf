import PagedTable.Proofs.Cursor.Scan

/-!
# Reading rows

A cursor answers, for one cell after the other, the row that the cell's value encodes or the reason
why it encodes none. Reading rows ends with the first such reason.

* `Row.leading`: the rows up to the first item that is none.
* `Walk.item_run`: the next item. `Walk.rowsFrom_run`: all leading rows from the cursor on.
-/

namespace PagedTable

open PagedTable.Action Pager

/-- The rows up to the first item that is none, and the reason of that item. -/
def Row.leading : List (Except DbError Row) → List Row × Option DbError
  | [] => ([], none)
  | .ok row :: items => (row :: (leading items).1, (leading items).2)
  | .error e :: _ => ([], some e)

/-- Items that are all rows are all read. -/
theorem Row.leading_ok (rows : List Row) : Row.leading (rows.map .ok) = (rows, none) := by
  induction rows with
  | nil => rfl
  | cons row rows ih => rw [List.map_cons, Row.leading, ih]

/-- The rows before the first item that is none. -/
theorem Row.leading_error (rows : List Row) (e : DbError) (rest : List (Except DbError Row)) :
    Row.leading (rows.map .ok ++ .error e :: rest) = (rows, some e) := by
  induction rows with
  | nil => rfl
  | cons row rows ih => rw [List.map_cons, List.cons_append, Row.leading, ih]

/-- All items are rows, or there is a first one that is none. -/
theorem Row.rows_or_flaw (items : List (Except DbError Row)) :
    (∃ rows : List Row, items = rows.map .ok) ∨
      ∃ (rows : List Row) (e : DbError) (rest : List (Except DbError Row)),
        items = rows.map .ok ++ .error e :: rest := by
  induction items with
  | nil => exact .inl ⟨[], rfl⟩
  | cons item items ih =>
    cases item with
    | error e => exact .inr ⟨[], e, items, rfl⟩
    | ok row =>
      rcases ih with ⟨rows, rfl⟩ | ⟨rows, e, rest, rfl⟩
      · exact .inl ⟨row :: rows, rfl⟩
      · exact .inr ⟨row :: rows, e, rest, rfl⟩

/-- The item that is read from a cell. -/
def Cell.row (x : Cell) : Except DbError Row := Row.decodePayload x.value

namespace Walk

variable {root : PageId} {f : Fill} {t : PageTree} {w : Walk} {x : Cell} {rest : List Cell}

/-- At the end there is no item. -/
theorem next_of_atEnd (h : w.cursor.atEnd = true) : next w = (.ok none, w) := by
  rw [next, bind_ok (state_apply w), if_pos h]
  rfl

/-- The row under the cursor, or the reason why it is none. -/
theorem attempt_row_run (h : Rooted w.pager.view root f t) (hat : w.cursor.At t (x :: rest)) :
    ∃ s', w.pager.Seen s' ∧ attempt row w = (.ok x.row, { w with pager := s' }) := by
  obtain ⟨s', hseen, hvalue⟩ := value_run h hat
  refine ⟨s', hseen, ?_⟩
  unfold attempt row
  rw [bind_ok hvalue, Cell.row]
  dsimp only
  cases Row.decodePayload x.value <;> rfl

/-- **The next item** is the one of the first cell from the cursor on. -/
theorem item_run (h : Rooted w.pager.view root f t) (hat : w.cursor.At t (x :: rest)) :
    ∃ w', next w = (.ok (some x.row), w') ∧ w.pager.Seen w'.pager ∧ w'.cursor.At t rest := by
  have hmore : ¬ w.cursor.atEnd = true := fun hend => by
    cases hat.atEnd_iff.mp hend
  obtain ⟨s₁, hseen₁, hrun₁⟩ := attempt_row_run h hat
  obtain ⟨w', hrun₂, hseen₂, hat'⟩ :=
    advance_run (w := { w with pager := s₁ }) (by rw [hseen₁.view]; exact h) hat
  refine ⟨w', ?_, hseen₁.trans hseen₂, hat'⟩
  rw [next, bind_ok (state_apply w), if_neg hmore, bind_ok hrun₁, bind_ok (attempt_ok hrun₂)]
  rfl

/-- **All leading rows** from the cursor on. -/
theorem rowsFrom_run {fuel : Nat} (h : Rooted w.pager.view root f t) (hat : w.cursor.At t rest)
    (hfuel : rest.length < fuel) :
    ∃ w', rowsFrom fuel w = (.ok (Row.leading (rest.map Cell.row)), w') ∧
      w.pager.Seen w'.pager := by
  induction fuel generalizing w rest with
  | zero => exact absurd hfuel (Nat.not_lt_zero _)
  | succ fuel ih =>
    rw [rowsFrom]
    cases rest with
    | nil =>
      rw [bind_ok (next_of_atEnd (hat.atEnd_iff.mpr rfl))]
      exact ⟨w, rfl, .refl _⟩
    | cons x rest =>
      obtain ⟨w₁, hrun₁, hseen₁, hat₁⟩ := item_run h hat
      rw [bind_ok hrun₁, List.map_cons]
      cases x.row with
      | error e => exact ⟨w₁, rfl, hseen₁⟩
      | ok row =>
        obtain ⟨w', hrun, hseen⟩ := ih (by rwa [hseen₁.view]) hat₁ (Nat.lt_of_succ_lt_succ hfuel)
        refine ⟨w', ?_, hseen₁.trans hseen⟩
        dsimp only
        rw [bind_ok hrun]
        rfl

end Walk

end PagedTable
