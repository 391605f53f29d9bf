import PagedTable.Proofs.Tree.Safe
import PagedTable.Cursor

/-!
# No cursor breaks a promise

Whatever bytes the pages hold, a cursor that has come to rest is behind the last row or on a cell of
a leaf (`Cursor.Stands`), so the cell it is asked for is there.

* `Cursor.start_safe`: a new cursor stands.
* `advance_triple`, `next_triple`, …: a cursor that stands goes on and stands again.
-/

namespace PagedTable

open PagedTable.Action

/-- The cursor is behind the last row, or on a cell of a leaf. -/
def Cursor.Stands (m : View) (c : Cursor) : Prop :=
  c.atEnd = false → ∃ p, m.node? c.page = some (.leaf, p) ∧ c.cell < p.count

namespace Walk

open Pager (Shows)

variable {m : View} {c : Cursor} {α : Type} {φ : α → Prop}

/-- The pages show `m`, wherever the cursor is. -/
def Sees (m : View) (w : Walk) : Prop := Shows m w.pager

/-- The pages show `m`, and the cursor is `c`. -/
def At (m : View) (c : Cursor) (w : Walk) : Prop := w.cursor = c ∧ Shows m w.pager

/-- The pages show `m`, and the cursor is behind the last row or on a cell of a leaf. -/
def Rests (m : View) (w : Walk) : Prop := w.cursor.Stands m ∧ Shows m w.pager

theorem At.sees : ∀ w, At m c w → Sees m w := fun _ h => h.2

theorem Rests.sees : ∀ w, Rests m w → Sees m w := fun _ h => h.2

theorem onPager_safe {x : Action Pager α} (h : Safe (Shows m) x φ) :
    Safe (At m c) (onPager x) φ :=
  .onPart fun _ hw => ⟨_, _, _, hw.2, h, fun _ _ ha => ⟨ha.1, hw.1, ha.2⟩, fun _ hs => ⟨hw.1, hs⟩⟩

theorem node_safe (m : View) (c : Cursor) (id : PageId) :
    Safe (At m c) (node id) fun r => m.node? id = some r := onPager_safe (Pager.node_safe m id)

theorem move_triple {E : Walk → Prop} (g : Cursor → Cursor) :
    Triple (At m c) (move g) (fun _ => At m (g c)) E :=
  .change fun _ hw => ⟨congrArg g hw.1, hw.2⟩

/-- A move that ends the way. -/
theorem rest_triple {E : Walk → Prop} {g : Cursor → Cursor} (h : (g c).Stands m) :
    Triple (At m c) (move g) (fun _ => Rests m) E :=
  (move_triple g).after (fun _ _ hw => ⟨hw.1.symm ▸ h, hw.2⟩) fun _ hw => hw

/-- An action may look at where the cursor is. -/
theorem look_triple {f : Walk → Action Walk α} {Q : α → Walk → Prop} {E : Walk → Prop}
    (h : ∀ w, w.cursor = c → Triple (At m c) (f w) Q E) : Triple (At m c) (state >>= f) Q E :=
  .state fun w hw => (h w hw.1).before fun _ hv => hv.symm ▸ hw

theorem descendFirst_triple (fuel : Nat) (c : Cursor) :
    Triple (At m c) (descendFirst fuel) (fun _ => Rests m) (Sees m) := by
  induction fuel generalizing c with
  | zero => exact .endless At.sees
  | succ fuel ih =>
    refine look_triple fun w hw => ?_
    refine (node_safe m c _).seq At.sees fun ⟨kind, p⟩ hn => ?_
    cases kind with
    | leaf =>
      refine rest_triple fun hend => ⟨p, hw ▸ hn, Nat.pos_of_ne_zero ?_⟩
      exact of_decide_eq_false hend
    | internal =>
      refine .ite (fun _ => .refuse At.sees) fun _ => ?_
      refine (Safe.given (Page.child?_eq (View.count_le hn) (Nat.zero_le _))).seq At.sees
        fun first _ => ?_
      exact (move_triple _).bind fun _ => ih _

theorem climb_triple (fuel : Nat) (id : PageId) (c : Cursor) :
    Triple (At m c) (climb fuel id) (fun _ => Rests m) (Sees m) := by
  induction fuel generalizing id with
  | zero => exact .endless At.sees
  | succ fuel ih =>
    refine (node_safe m c id).seq At.sees fun ⟨_, p⟩ _ => .ite (fun _ => ?_) fun _ => ?_
    · exact rest_triple fun hend => absurd hend Bool.noConfusion
    refine (node_safe m c p.parent).seq At.sees fun ⟨_, parent⟩ hn => ?_
    have hcount := View.count_le_internal hn
    refine (Safe.need (Page.indexOf?_within hcount id)).seq At.sees fun r hr => ?_
    cases r with
    | none => exact .refuse At.sees
    | some i =>
      have hi := hr i rfl
      refine .ite (fun _ => ih _) fun hne => ?_
      refine (Safe.given (Page.child?_eq hcount (by omega))).seq At.sees fun next _ => ?_
      exact (move_triple _).bind fun _ => descendFirst_triple _ _

/-- The cell under a cursor is there. -/
theorem value_safe (hc : c.Stands m) (hend : c.atEnd = false) :
    Safe (At m c) value fun _ => True := by
  obtain ⟨p, hn, hlt⟩ := hc hend
  refine look_triple fun w hw => ?_
  subst hw
  refine (Safe.require hend).bind fun _ _ => (node_safe m _ _).bind fun ⟨_, q⟩ hq => ?_
  rw [hn] at hq
  cases hq
  have hcell := Page.cell?_eq p (Nat.lt_of_lt_of_le hlt (View.count_le hn))
  exact (Safe.given hcell).bind fun _ _ => .pure trivial

theorem row_safe (hc : c.Stands m) (hend : c.atEnd = false) :
    Safe (At m c) row fun _ => True :=
  (value_safe hc hend).bind fun _ _ => (Safe.ofExcept _).weaken fun _ _ => trivial

/-- A cursor goes on to the next row. If it cannot, it may be anywhere. -/
theorem advance_triple (hc : c.Stands m) :
    Triple (At m c) advance (fun _ => Rests m) (Sees m) := by
  refine look_triple fun w hw => ?_
  subst hw
  refine .ite (fun _ => .pure fun w hw => ⟨hw.1.symm ▸ hc, hw.2⟩) fun hend => ?_
  obtain ⟨p, hn, -⟩ := hc (Bool.eq_false_iff.mpr hend)
  refine (node_safe m _ _).seq At.sees fun ⟨_, q⟩ hq => ?_
  rw [hn] at hq
  cases hq
  refine .ite (fun hlt => ?_) fun _ => climb_triple _ _ _
  exact rest_triple fun _ => ⟨p, hn, hlt⟩

/-- A walk starts from where the cursor is. -/
theorem triple_of_rests {x : Action Walk α} {Q : α → Walk → Prop} {E : Walk → Prop}
    (h : ∀ c, c.Stands m → Triple (At m c) x Q E) : Triple (Rests m) x Q E :=
  ⟨fun w hw => (h w.cursor hw.1).run w ⟨rfl, hw.2⟩⟩

/-- Whatever comes next, the cursor stands again: it is sent behind the last row if it cannot go
on. -/
theorem next_triple (m : View) : Triple (Rests m) next (fun _ => Rests m) (Sees m) := by
  refine triple_of_rests fun c hc => look_triple fun w hw => ?_
  subst hw
  refine .ite (fun _ => .pure fun w hw => ⟨hw.1.symm ▸ hc, hw.2⟩) fun hend => ?_
  refine (row_safe hc (Bool.eq_false_iff.mpr hend)).attempt.seq At.sees fun r _ => ?_
  refine (advance_triple hc).attempt.bind fun moved => ?_
  cases moved with
  | ok _ => exact .pure fun _ hw => hw
  | error _ =>
    refine Triple.bind (Q := fun _ => Rests m) (.change fun _ hw => ?_) fun _ =>
      .pure fun _ hw => hw
    exact ⟨fun hend => absurd hend Bool.noConfusion, hw⟩

theorem rowsFrom_triple (m : View) (fuel : Nat) :
    Triple (Rests m) (rowsFrom fuel) (fun _ => Rests m) (Sees m) := by
  induction fuel with
  | zero => exact .endless Rests.sees
  | succ fuel ih =>
    refine (next_triple m).bind fun item => ?_
    match item with
    | none => exact .pure fun _ hw => hw
    | some (.error _) => exact .pure fun _ hw => hw
    | some (.ok _) => exact ih.bind fun _ => .pure fun _ hw => hw

theorem entriesFrom_triple (m : View) (fuel : Nat) :
    Triple (Rests m) (entriesFrom fuel) (fun _ => Rests m) (Sees m) := by
  induction fuel with
  | zero => exact .endless Rests.sees
  | succ fuel ih =>
    refine triple_of_rests fun c hc => look_triple fun w hw => ?_
    subst hw
    refine .ite (fun _ => .pure fun w hw => ⟨hw.1.symm ▸ hc, hw.2⟩) fun hend => ?_
    refine (value_safe hc (Bool.eq_false_iff.mpr hend)).seq At.sees fun _ _ => ?_
    exact (advance_triple hc).bind fun _ => ih.bind fun _ => .pure fun _ hw => hw

end Walk

/-- A new cursor is behind the last row or on a cell of a leaf. -/
theorem Cursor.start_safe (T : Tree) (m : View) :
    Safe (Pager.Shows m) (Cursor.start T) fun c => c.Stands m := by
  refine ⟨fun s hs => ?_⟩
  have hw := (Walk.descendFirst_triple (m := m) walkLength { page := T.root }).run
    { cursor := { page := T.root }, pager := s } ⟨rfl, hs⟩
  unfold Cursor.start
  rcases hr : Walk.descendFirst walkLength { cursor := { page := T.root }, pager := s } with
    ⟨e | _, w⟩
  · rw [hr] at hw
    exact hw
  · rw [hr] at hw
    exact hw

end PagedTable
