import PagedTable.Proofs.Tree.Respects
import PagedTable.Cursor

/-!
# What a cursor cannot tell apart

A cursor knows the pages only through the pager, so a relation that accesses to pages respect is
respected by a walk from the same place.

* `Walk.Along R`: the cursors are at the same place, and `R` relates the pagers.
* `next_respects`, `rowsFrom_respects`, …: walks. `Cursor.start_respects`: where they start.
-/

namespace PagedTable

open PagedTable.Action

namespace Walk

open Pager

variable {R : Pager → Pager → Prop} {α : Type}

/-- The cursors are at the same place, and `R` relates the pagers. -/
def Along (R : Pager → Pager → Prop) (w w' : Walk) : Prop :=
  w.cursor = w'.cursor ∧ R w.pager w'.pager

theorem onPager_respects {x : Action Pager α} (hx : Respects R x) :
    Respects (Along R) (onPager x) :=
  .onPart hx (fun _ _ h => h.2) fun _ _ _ _ h hs => ⟨h.1, hs⟩

theorem node_respects (hR : Reads R) (id : PageId) : Respects (Along R) (node id) :=
  onPager_respects (hR.node id)

theorem move_respects (g : Cursor → Cursor) : Respects (Along R) (move g) :=
  .change fun _ _ h => ⟨congrArg g h.1, h.2⟩

theorem descendFirst_respects (hR : Reads R) (fuel : Nat) :
    Respects (Along R) (descendFirst fuel) := by
  induction fuel with
  | zero => exact .fail _
  | succ fuel ih =>
    refine .state (fun w w' h => by rw [h.1]) fun w => ?_
    refine .bind (node_respects hR _) fun ⟨kind, page⟩ => ?_
    cases kind with
    | leaf => exact move_respects _
    | internal =>
      exact .ite (.fail _) (.bind (.need _) fun _ => .bind (move_respects _) fun _ => ih)

theorem climb_respects (hR : Reads R) (fuel : Nat) (id : PageId) :
    Respects (Along R) (climb fuel id) := by
  induction fuel generalizing id with
  | zero => exact .fail _
  | succ fuel ih =>
    refine .bind (node_respects hR id) fun _ => .ite (move_respects _) ?_
    refine .bind (node_respects hR _) fun ⟨_, parent⟩ => .bind (.need _) fun found => ?_
    cases found with
    | none => exact .fail _
    | some i =>
      exact .ite (ih _) (.bind (.need _) fun _ => .bind (move_respects _) fun _ =>
        descendFirst_respects hR _)

theorem value_respects (hR : Reads R) : Respects (Along R) value :=
  .state (fun w w' h => by rw [h.1]) fun _ => .bind (.require _) fun _ =>
    .bind (node_respects hR _) fun _ => .bind (.need _) fun _ => .pure _

theorem row_respects (hR : Reads R) : Respects (Along R) row :=
  .bind (value_respects hR) fun _ => .ofExcept _

theorem advance_respects (hR : Reads R) : Respects (Along R) advance :=
  .state (fun w w' h => by rw [h.1]) fun _ => .ite (.pure _) (.bind (node_respects hR _) fun _ =>
    .ite (move_respects _) (climb_respects hR _ _))

theorem next_respects (hR : Reads R) : Respects (Along R) next := by
  refine .state (fun w w' h => by rw [h.1]) fun _ => .ite (.pure _) ?_
  refine .bind (row_respects hR).attempt fun _ =>
    .bind (advance_respects hR).attempt fun moved => ?_
  cases moved with
  | ok _ => exact .pure _
  | error e => exact .bind (move_respects _) fun _ => .pure _

theorem rowsFrom_respects (hR : Reads R) (fuel : Nat) : Respects (Along R) (rowsFrom fuel) := by
  induction fuel with
  | zero => exact .fail _
  | succ fuel ih =>
    refine .bind (next_respects hR) fun item => ?_
    match item with
    | none => exact .pure _
    | some (.error _) => exact .pure _
    | some (.ok _) => exact .bind ih fun _ => .pure _

theorem entriesFrom_respects (hR : Reads R) (fuel : Nat) :
    Respects (Along R) (entriesFrom fuel) := by
  induction fuel with
  | zero => exact .fail _
  | succ fuel ih =>
    exact .state (fun w w' h => by rw [h.1]) fun _ =>
      .ite (.pure _) (.bind (value_respects hR) fun _ => .bind (advance_respects hR) fun _ =>
        .bind ih fun _ => .pure _)

theorem insertRow_respects (hR : Accesses R) (T : Tree) (row : Row) :
    Respects (Along R) (insertRow T row) :=
  .bind (.ofExcept _) fun _ => onPager_respects (Tree.insert_respects hR _ _)

end Walk

/-- A walk with a cursor that is given up afterwards. -/
theorem Cursor.start_respects {R : Pager → Pager → Prop} (hR : Pager.Reads R) (T : Tree) :
    Respects R (Cursor.start T) := by
  intro s s' h
  have hw := Walk.descendFirst_respects hR walkLength { cursor := { page := T.root }, pager := s }
    { cursor := { page := T.root }, pager := s' } ⟨rfl, h⟩
  unfold Cursor.start
  revert hw
  rcases Walk.descendFirst walkLength { cursor := { page := T.root }, pager := s } with ⟨r, w⟩
  rcases Walk.descendFirst walkLength { cursor := { page := T.root }, pager := s' } with ⟨r', w'⟩
  rintro ⟨rfl, hcursor, hpager⟩
  cases r with
  | ok _ => exact ⟨congrArg Except.ok hcursor, hpager⟩
  | error e => exact ⟨rfl, hpager⟩

end PagedTable
