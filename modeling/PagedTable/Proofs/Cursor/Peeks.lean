import PagedTable.Proofs.Tree.Peeks
import PagedTable.Cursor

/-!
# Looking through a cursor

A walk goes from node to node as well, from any place and over any pages. Only the sequence of rows
goes on after a fault, and then it asks for the same page again.

* `start_peeks`, `value_peeks`, `advance_peeks`, `entriesFrom_peeks`: an operation that comes to a
  value has loaded nodes only.
* `next_ends`, `rowsFrom_ends`: so has one that answers rows. One that answers an error has tried
  one more page at most.
-/

namespace PagedTable

open PagedTable.Action Pager

namespace Walk

variable {s : Pager} {c : Cursor} {α : Type} {P E : Pager → Prop} {Q : α → Pager → Prop}

/-- An operation with a cursor peeks. -/
abbrev Reading (s : Pager) (x : Action Walk α) : Prop := Peeks Walk.pager s x

theorem onPager_peeks {x : Action Pager α} (h : Tree.Reading s x) : Reading s (onPager x) :=
  .onPart fun _ hw => ⟨_, _, _, hw, h, fun _ _ ha => ha, fun _ he => he⟩

theorem node_peeks (s : Pager) (id : PageId) : Reading s (node id) :=
  onPager_peeks (Pager.node_peeks s id)

theorem move_peeks (s : Pager) (g : Cursor → Cursor) : Reading s (move g) := .change fun _ h => h

theorem look_peeks {f : Walk → Action Walk α} (h : ∀ w, Reading s (f w)) :
    Reading s (state >>= f) :=
  .state fun w hw => (h w).before fun _ hv => hv ▸ hw

theorem descendFirst_peeks (s : Pager) (fuel : Nat) : Reading s (descendFirst fuel) := by
  induction fuel with
  | zero => exact .fail _
  | succ fuel ih =>
    refine look_peeks fun w => .bind (node_peeks s _) fun ⟨kind, page⟩ => ?_
    cases kind with
    | leaf => exact move_peeks s _
    | internal =>
      exact .ite (.fail _) (.bind (.need _) fun _ => .bind (move_peeks s _) fun _ => ih)

theorem climb_peeks (s : Pager) (fuel : Nat) (id : PageId) : Reading s (climb fuel id) := by
  induction fuel generalizing id with
  | zero => exact .fail _
  | succ fuel ih =>
    refine .bind (node_peeks s id) fun ⟨_, page⟩ => .ite (move_peeks s _) ?_
    refine .bind (node_peeks s _) fun ⟨_, parent⟩ => .bind (.need _) fun found => ?_
    cases found with
    | none => exact .fail _
    | some i =>
      exact .ite (ih _) (.bind (.need _) fun _ => .bind (move_peeks s _) fun _ =>
        descendFirst_peeks s _)

theorem value_peeks (s : Pager) : Reading s value :=
  look_peeks fun _ => .bind (.require _) fun _ => .bind (node_peeks s _) fun _ =>
    .bind (.need _) fun _ => .pure _

theorem advance_peeks (s : Pager) : Reading s advance :=
  look_peeks fun _ => .ite (.pure _) <| .bind (node_peeks s _) fun _ =>
    .ite (move_peeks s _) (climb_peeks s _ _)

theorem entriesFrom_peeks (s : Pager) (fuel : Nat) : Reading s (entriesFrom fuel) := by
  induction fuel with
  | zero => exact .fail _
  | succ fuel ih =>
    exact look_peeks fun _ => .ite (.pure _) <| .bind (value_peeks s) fun _ =>
      .bind (advance_peeks s) fun _ => .bind ih fun _ => .pure _

/-! ## The sequence of rows -/

/-- The cursor is still `c`, and `P` holds of the pages. -/
def Still (P : Pager → Prop) (c : Cursor) (w : Walk) : Prop := w.cursor = c ∧ P w.pager

theorem Still.mono {P' : Pager → Prop} (h : ∀ s, P s → P' s) (w : Walk) (hw : Still P c w) :
    Still P' c w := ⟨hw.1, h _ hw.2⟩

theorem of_still {x : Action Walk α} {Q : α → Walk → Prop} {E : Walk → Prop}
    (h : ∀ c, Ends (Still P c) x Q E) : Ends (fun w => P w.pager) x Q E :=
  ⟨fun w hw => (h w.cursor).run w ⟨rfl, hw⟩⟩

/-- A cursor knows where it is. -/
theorem look_still {f : Walk → Action Walk α} {Q : α → Walk → Prop} {E : Walk → Prop}
    (h : ∀ w, w.cursor = c → Ends (Still P c) (f w) Q E) :
    Ends (Still P c) (state >>= f) Q E :=
  .state fun w hw => (h w hw.1).before fun _ hv => hv ▸ hw

/-- The page of the cursor is loaded, or it is stuck there. -/
theorem node_still (s : Pager) (c : Cursor) :
    Ends (Still (s.StuckAt c.page) c) (node c.page) (fun _ => Still s.Seen c)
      (Still (s.StuckAt c.page) c) :=
  .onPart fun _ hw => ⟨_, _, _, hw.2, Pager.node_ends s c.page, fun _ _ h => ⟨hw.1, h⟩,
    fun _ h => ⟨hw.1, h⟩⟩

/-- The row under the cursor is on its page, so no other page is tried for it. -/
theorem row_still (s : Pager) (c : Cursor) :
    Ends (Still s.Seen c) row (fun _ => Still s.Seen c) (Still (s.StuckAt c.page) c) := by
  have hstuck : ∀ w, Still s.Seen c w → Still (s.StuckAt c.page) c w :=
    Still.mono fun _ h => h.stuckAt
  refine .bind (Q := fun _ => Still s.Seen c) (look_still fun w hw => ?_) fun _ => .ofExcept hstuck
  subst hw
  refine .bind (.require hstuck) fun _ => .bind ((node_still s _).before hstuck) fun _ => ?_
  exact .bind (.need hstuck) fun _ => .pure fun _ h => h

/-- To move on, a cursor loads its own page first, and is stuck there again if it was before. -/
theorem advance_still (s : Pager) (hend : c.atEnd = false) :
    Ends (Still (s.StuckAt c.page) c) advance (fun _ w => s.Seen w.pager)
      fun w => s.Peeked w.pager := by
  refine look_still fun w hw => ?_
  subst hw
  refine .ite (fun h => absurd (hend.symm.trans h) Bool.noConfusion) fun _ => ?_
  refine .bind ((node_still s _).after (fun _ _ h => h) fun _ h => h.2.peeked) fun ⟨_, page⟩ => ?_
  exact .ite (fun _ => .change fun _ h => h.2) fun _ =>
    (climb_peeks s _ _).before fun _ h => h.2

/-- The next item was answered: a row, or the end, after nodes alone were loaded, and an error after
an attempt at one more page at most. -/
def Answered (s : Pager) : Option (Except DbError Row) → Walk → Prop
  | some (.error _), w => s.Peeked w.pager
  | _, w => s.Seen w.pager

/-- **The next item.** A cursor whose page is no node fails to move on from there as well, without
an attempt at another page. -/
theorem next_ends (s : Pager) :
    Ends (fun w => s.Seen w.pager) next (Answered s) fun w => s.Peeked w.pager := by
  refine of_still fun c => look_still fun w hw => ?_
  subst hw
  refine .ite (fun _ => .pure fun _ h => h.2) fun hend => ?_
  have hrow := (row_still s w.cursor).attempt
  have hadvance := (advance_still s (Bool.eq_false_iff.mpr hend)).attempt
  refine .bind (hrow.after (fun _ _ h => h) fun _ h => h.2.peeked) fun row => ?_
  refine .bind (hadvance.before fun v hv => ?_) fun moved => ?_
  · cases row with
    | ok _ => exact Still.mono (fun _ h => h.stuckAt) v hv
    | error _ => exact hv
  cases moved with
  | ok _ =>
    refine .pure fun v hv => ?_
    cases row with
    | ok _ => exact hv
    | error _ => exact Seen.peeked hv
  | error _ =>
    exact .bind (.change fun _ h => h) fun _ => .pure fun _ h => h

/-- Rows were answered: all of them after nodes alone were loaded, and those before an error after
an attempt at one more page at most. -/
def Listed (s : Pager) (r : List Row × Option DbError) (s' : Pager) : Prop :=
  match r.2 with
  | none => s.Seen s'
  | some _ => s.Peeked s'

/-- **The rows** up to the first error. -/
theorem rowsFrom_ends (s : Pager) (fuel : Nat) :
    Ends (fun w => s.Seen w.pager) (rowsFrom fuel) (fun r w => Listed s r w.pager)
      fun w => s.Peeked w.pager := by
  induction fuel with
  | zero => exact .fail fun _ h => h.peeked
  | succ fuel ih =>
    refine .bind (next_ends s) fun item => ?_
    match item with
    | none => exact .pure fun _ h => h
    | some (.error _) => exact .pure fun _ h => h
    | some (.ok _) => exact .bind ih fun ⟨_, flaw⟩ => .pure fun _ h => h

end Walk

/-- A new cursor. -/
theorem Cursor.start_peeks (s : Pager) (T : Tree) : Tree.Reading s (Cursor.start T) := by
  refine ⟨fun s' hs' => ?_⟩
  have h := (Walk.descendFirst_peeks s walkLength).run ⟨{ page := T.root }, s'⟩ hs'
  unfold Cursor.start
  rcases hr : Walk.descendFirst walkLength ⟨{ page := T.root }, s'⟩ with ⟨e | a, w⟩
  · rw [hr] at h
    exact h
  · rw [hr] at h
    exact h

end PagedTable
