import PagedTable.Proofs.Cursor.Rows
import PagedTable.Proofs.Cursor.Safe
import PagedTable.Proofs.Node.Codec
import PagedTable.Proofs.Pager.Peeked
import PagedTable.Proofs.Row.Canonical

/-!
# The iterator and the loop it stands for

Whoever reads a table by hand reads the row under the cursor, moves on, and goes on like that until
the cursor is behind the last row or cannot move. `Walk.visit` is this loop, and `Visits` what it
comes by. The iterator does the same steps but has one item to answer for both, and where the cursor
cannot move it answers the reason for that. The row it has read at this place is not answered.

* `Walk.visit_cases`: one turn of the loop and one item of the iterator, side by side.
* `Walk.visit_run`: the whole loop, and as many items, over pages with any bytes.
* `items_of_visits`: the items are what the loop came by, without the row at the place that the
  cursor could not leave. From then on there is no item. `row_not_answered` is a file where a row is
  not answered.
* `Walk.visit_rooted`: over a tree that passes the check, the cursor can leave every place.
-/

namespace PagedTable

open PagedTable.Action Pager

/-- What a loop over a cursor comes by. -/
structure Visits where
  /-- The row at each place that the cursor went past, or the reason why there is none. -/
  passed : List (Except DbError Row) := []
  /-- The same at the place that it could not leave, and the reason why not. -/
  stuck : Option (Except DbError Row × DbError) := none

namespace Visits

variable {v : Visits}

/-- After another place, which the cursor went past first. -/
def past (item : Except DbError Row) (v : Visits) : Visits := { v with passed := item :: v.passed }

/-- What was read, at one place after the other. -/
def read (v : Visits) : List (Except DbError Row) := v.passed ++ (v.stuck.map Prod.fst).toList

/-- Why the cursor could not go on. -/
def reason (v : Visits) : List (Except DbError Row) := (v.stuck.map fun r => .error r.2).toList

/-- Everything that the loop came by. -/
def log (v : Visits) : List (Except DbError Row) := v.read ++ v.reason

/-- What the iterator answers. -/
def yielded (v : Visits) : List (Except DbError Row) := v.passed ++ v.reason

/-- The iterator goes behind the last row when it could not go on. -/
def leave (v : Visits) (w : Walk) : Walk :=
  if v.stuck.isSome then { w with cursor := { w.cursor with atEnd := true } } else w

/-- All is answered if the cursor could leave every place, and only then. -/
theorem yielded_eq_log_iff : v.yielded = v.log ↔ v.stuck = none := by
  rcases v with ⟨passed, _ | ⟨item, e⟩⟩
  · simp [yielded, log, read]
  · simp [yielded, log, read, reason]

/-- Whatever was read is answered, or it was read where the cursor got stuck. -/
theorem mem_yielded_of_mem_read {item : Except DbError Row} (h : item ∈ v.read) :
    item ∈ v.yielded ∨ ∃ e, v.stuck = some (item, e) := by
  rcases v with ⟨passed, _ | ⟨last, e⟩⟩
  · simp_all [read, yielded]
  · simp only [read, yielded, Option.map_some, Option.toList_some, List.mem_append,
      List.mem_singleton] at h ⊢
    rcases h with h | rfl
    · exact .inl (.inl h)
    · exact .inr ⟨e, rfl⟩

/-- The loop was over before its `n`-th turn if the cursor got stuck, or if fewer places were
passed. Then the cursor of the iterator is behind the last row. -/
structure Counted (n : Nat) (v : Visits) (w : Walk) : Prop where
  length_le : v.passed.length ≤ n
  turns : v.stuck.isSome → v.passed.length < n
  ended : v.passed.length < n → (v.leave w).cursor.atEnd = true

end Visits

namespace Walk

variable {m : View} {n : Nat} {w w' : Walk} {root : PageId} {f : Fill} {t : PageTree}
  {rest : List Cell}

/-- The loop: at most `n` times the row under the cursor is read, and the cursor moves on. -/
def visit : Nat → Action Walk Visits
  | 0 => return {}
  | n + 1 => do
    if (← state).cursor.atEnd then return {}
    else
      let item ← attempt row
      match ← attempt advance with
      | .ok () => return (← visit n).past item
      | .error e => return { stuck := some (item, e) }

/-! ## Turn by turn -/

theorem visit_of_atEnd (h : w.cursor.atEnd = true) (n : Nat) : visit n w = (.ok {}, w) := by
  cases n with
  | zero => rfl
  | succ n =>
    rw [visit, bind_ok (state_apply w), if_pos h]
    rfl

theorem take_of_atEnd (h : w.cursor.atEnd = true) (n : Nat) : take n w = (.ok [], w) := by
  cases n with
  | zero => rfl
  | succ n =>
    rw [take, bind_ok (next_of_atEnd h)]
    rfl

/-- **One turn of the loop, and one item.** Neither comes to a value, and for the same fault; or the
cursor gets stuck, and the item is the reason; or it moves on, and the item is what was read. -/
theorem visit_cases (n : Nat) (h : ¬ w.cursor.atEnd = true) :
    (∃ g w', (∀ e, g ≠ .refused e) ∧ visit (n + 1) w = (.error g, w') ∧
      next w = (.error g, w')) ∨
    (∃ item e w', visit (n + 1) w = (.ok { stuck := some (item, e) }, w') ∧
      next w = (.ok (some (.error e)), { w' with cursor := { w'.cursor with atEnd := true } })) ∨
    (∃ item w', visit (n + 1) w = (visit n >>= fun v => pure (v.past item)) w' ∧
      next w = (.ok (some item), w')) := by
  rw [visit, next, bind_ok (state_apply w), bind_ok (state_apply w), if_neg h, if_neg h]
  rcases hrow : attempt row w with ⟨g | item, w₁⟩
  · rw [bind_error hrow, bind_error hrow]
    exact .inl ⟨g, w₁, attempt_ne_refused hrow, rfl, rfl⟩
  rw [bind_ok hrow, bind_ok hrow]
  rcases hmove : attempt advance w₁ with ⟨g | e | ⟨⟩, w₂⟩
  · rw [bind_error hmove, bind_error hmove]
    exact .inl ⟨g, w₂, attempt_ne_refused hmove, rfl, rfl⟩
  · rw [bind_ok hmove, bind_ok hmove]
    exact .inr (.inl ⟨item, e, w₂, rfl, rfl⟩)
  · rw [bind_ok hmove, bind_ok hmove]
    exact .inr (.inr ⟨item, w₂, rfl, rfl⟩)

/-- **The whole loop, and as many items.** Neither comes to a value, and for the same fault; or the
items are what the loop came by, with the reason why the cursor could not go on in place of what was
read there. -/
theorem visit_run (n : Nat) (w : Walk) :
    (∃ g w', (∀ e, g ≠ .refused e) ∧ visit n w = (.error g, w') ∧ take n w = (.error g, w')) ∨
    ∃ v w', visit n w = (.ok v, w') ∧ take n w = (.ok v.yielded, v.leave w') ∧ v.Counted n w' := by
  induction n generalizing w with
  | zero => exact .inr ⟨{}, w, rfl, rfl, Nat.le_refl 0, nofun, nofun⟩
  | succ n ih =>
    by_cases hend : w.cursor.atEnd = true
    · exact .inr ⟨{}, w, visit_of_atEnd hend _, take_of_atEnd hend _, Nat.zero_le _, nofun,
        fun _ => hend⟩
    rw [take]
    obtain ⟨g, w', hg, hvisit, hnext⟩ | ⟨item, e, w', hvisit, hnext⟩ | ⟨item, w₁, hvisit, hnext⟩ :=
      visit_cases n hend
    · rw [hvisit, bind_error hnext]
      exact .inl ⟨g, w', hg, rfl, rfl⟩
    · rw [hvisit, bind_ok hnext]
      dsimp only
      -- The iterator is behind the last row now, so there are no further items.
      rw [bind_ok (take_of_atEnd rfl n)]
      exact .inr ⟨_, w', rfl, rfl, Nat.zero_le _, fun _ => Nat.succ_pos n, fun _ => rfl⟩
    · rw [hvisit, bind_ok hnext]
      dsimp only
      obtain ⟨g, w', hg, hv, htake⟩ | ⟨v, w', hv, htake, hcount⟩ := ih w₁
      · rw [bind_error hv, bind_error htake]
        exact .inl ⟨g, w', hg, rfl, rfl⟩
      · rw [bind_ok hv, bind_ok htake]
        exact .inr ⟨_, w', rfl, rfl, Nat.succ_le_succ hcount.length_le,
          fun h => Nat.succ_lt_succ (hcount.turns h),
          fun h => hcount.ended (Nat.lt_of_succ_lt_succ h)⟩

/-- The loop breaks no promise, whatever the pages hold. -/
theorem visit_triple (m : View) (n : Nat) :
    Triple (Rests m) (visit n) (fun _ => Sees m) (Sees m) := by
  induction n with
  | zero => exact .pure Rests.sees
  | succ n ih =>
    refine triple_of_rests fun c hc => look_triple fun w hw => ?_
    subst hw
    refine .ite (fun _ => .pure At.sees) fun hend => ?_
    refine (row_safe hc (Bool.eq_false_iff.mpr hend)).attempt.seq At.sees fun r _ => ?_
    refine (advance_triple hc).attempt.bind fun moved => ?_
    cases moved with
    | ok _ => exact ih.bind fun _ => .pure fun _ hw => hw
    | error _ => exact .pure fun _ hw => hw

/-- **On a tree that passes the check** the cursor can leave every place. -/
theorem visit_rooted (n : Nat) (h : Rooted w.pager.view root f t) (hat : w.cursor.At t rest) :
    ∃ w', visit n w = (.ok { passed := (rest.take n).map Cell.row }, w') ∧
      w.pager.Seen w'.pager := by
  induction n generalizing w rest with
  | zero => exact ⟨w, rfl, .refl _⟩
  | succ n ih =>
    cases rest with
    | nil => exact ⟨w, visit_of_atEnd (hat.atEnd_iff.mpr rfl) _, .refl _⟩
    | cons x rest =>
      have hmore : ¬ w.cursor.atEnd = true := fun hend => by
        cases hat.atEnd_iff.mp hend
      obtain ⟨s₁, hseen₁, hrun₁⟩ := attempt_row_run h hat
      obtain ⟨w₂, hrun₂, hseen₂, hat₂⟩ :=
        advance_run (w := { w with pager := s₁ }) (by rw [hseen₁.view]; exact h) hat
      have hseen := hseen₁.trans hseen₂
      obtain ⟨w', hrun, hseen'⟩ := ih (by rwa [hseen.view]) hat₂
      refine ⟨w', ?_, hseen.trans hseen'⟩
      rw [visit, bind_ok (state_apply w), if_neg hmore, bind_ok hrun₁, bind_ok (attempt_ok hrun₂)]
      dsimp only
      rw [bind_ok hrun]
      rfl

/-! ## A place that a cursor cannot leave -/

/-- The row on a leaf that the view shows. -/
theorem attempt_row_of_leaf {p : Page} {x : Cell} (hend : w.cursor.atEnd = false)
    (hn : w.pager.view.node? w.cursor.page = some (.leaf, p))
    (hx : p.cells[w.cursor.cell]? = some x) :
    attempt row w = (.ok x.row, { w with pager := w.pager.fetched w.cursor.page }) := by
  have hcell := Page.cell?_of_getElem? (View.count_le hn) hx
  have hvalue : value w =
      (.ok (x.key, x.value), { w with pager := w.pager.fetched w.cursor.page }) := by
    rw [value_node hn hend, hcell]
  unfold attempt row
  rw [bind_ok hvalue, Cell.row]
  dsimp only
  cases Row.decodePayload x.value <;> rfl

/-- A page that is no node is refused. -/
theorem node_refused {id : PageId} (h : w.pager.view.node? id = none) :
    ∃ e, Walk.node id w = (.error (.refused e), { w with pager := w.pager.fetched id }) := by
  obtain ⟨e, he⟩ := node_fails h
  refine ⟨e, ?_⟩
  unfold Walk.node onPager onPart
  rw [he]

/-- A cursor does not leave a leaf whose parent is no node, once it is on the last cell. -/
theorem advance_of_orphan {p : Page} (hend : w.cursor.atEnd = false)
    (hn : w.pager.view.node? w.cursor.page = some (.leaf, p))
    (hlast : ¬ w.cursor.cell + 1 < p.count) (hroot : p.isRoot = false)
    (hparent : w.pager.view.node? p.parent = none) :
    ∃ e w', attempt advance w = (.ok (.error e), w') := by
  -- The leaf is loaded twice, to look for another cell and to climb, and then its parent is.
  let w₁ : Walk := { w with pager := w.pager.fetched w.cursor.page }
  let w₂ : Walk := { w with pager := w₁.pager.fetched w.cursor.page }
  have hview₁ : w₁.pager.view = w.pager.view := view_fetched _ _
  have hview₂ : w₂.pager.view = w.pager.view := (view_fetched _ _).trans hview₁
  have hn₁ : Walk.node w.cursor.page w₁ = (.ok (.leaf, p), w₂) := node_run (hview₁ ▸ hn)
  obtain ⟨e, he⟩ := node_refused (w := w₂) (hview₂ ▸ hparent)
  refine ⟨e, { w₂ with pager := w₂.pager.fetched p.parent }, attempt_refused ?_⟩
  rw [advance, bind_ok (state_apply w)]
  dsimp only
  rw [hend, if_neg Bool.false_ne_true, bind_ok (node_run hn)]
  dsimp only
  rw [if_neg hlast, climb, bind_ok hn₁]
  dsimp only
  rw [hroot, if_neg Bool.false_ne_true, bind_error he]

/-- **A leaf whose parent is no node**: the loop reads its only cell, and gets stuck there. -/
theorem visit_of_orphan {p : Page} {x : Cell} {id : PageId} (hw : w.cursor = { page := id })
    (hn : w.pager.view.node? id = some (.leaf, p)) (hcells : p.cells = [x])
    (hroot : p.isRoot = false) (hparent : w.pager.view.node? p.parent = none) (n : Nat) :
    ∃ e w', visit (n + 1) w = (.ok { stuck := some (x.row, e) }, w') := by
  obtain ⟨c, s⟩ := w
  obtain rfl := hw
  have hcount : p.count = 1 := by rw [← Page.length_cells, hcells, List.length_singleton]
  have hrow := attempt_row_of_leaf (w := ⟨{ page := id }, s⟩) rfl hn (by rw [hcells]; rfl)
  obtain ⟨e, w', hmove⟩ := advance_of_orphan (w := ⟨{ page := id }, s.fetched id⟩) rfl
    (by rwa [view_fetched]) (by rw [hcount]; exact Nat.lt_irrefl 1) hroot
    (by rwa [view_fetched])
  refine ⟨e, w', ?_⟩
  rw [visit, bind_ok (state_apply _), if_neg Bool.false_ne_true, bind_ok hrow, bind_ok hmove]
  rfl

end Walk

open Walk

/-- A cursor starts on the first cell of a root that is a leaf. -/
theorem Cursor.start_of_leaf {T : Tree} {s : Pager} {p : Page}
    (hn : s.view.node? T.root = some (.leaf, p)) (hcount : p.count ≠ 0) :
    Cursor.start T s = (.ok { page := T.root }, s.fetched T.root) := by
  unfold Cursor.start
  have hrun : descendFirst walkLength ⟨{ page := T.root }, s⟩ =
      (.ok (), ⟨{ page := T.root }, s.fetched T.root⟩) := by
    rw [descendFirst, bind_ok (state_apply _),
      bind_ok (node_run (w := ⟨{ page := T.root }, s⟩) hn)]
    dsimp only
    rw [decide_eq_false hcount]
    rfl
  rw [hrun]

/-- **The items of the iterator**, over pages with any bytes. Take a new cursor, and compare the
first `n` items with `n` turns of the loop. If one would never end, so would the other. Otherwise
the items are what was read at each place that the cursor went past, and then, if it got stuck, the
reason why: all that the loop came by but for what was read where the cursor got stuck. Once the
loop is over, there is no further item. -/
theorem items_of_visits (T : Tree) (s s₀ : Pager) (c : Cursor)
    (h : Cursor.start T s = (.ok c, s₀)) (n : Nat) :
    (∃ g w, visit n ⟨c, s₀⟩ = (.error g, w) ∧ take n ⟨c, s₀⟩ = (.error g, w) ∧
      (s.Sound → g = .endless)) ∨
    ∃ v w w', visit n ⟨c, s₀⟩ = (.ok v, w) ∧ take n ⟨c, s₀⟩ = (.ok v.yielded, w') ∧
      (∀ item ∈ v.read, item ∈ v.yielded ∨ ∃ e, v.stuck = some (item, e)) ∧
      (v.yielded = v.log ↔ v.stuck = none) ∧
      v.passed.length ≤ n ∧ (v.stuck.isSome → v.passed.length < n) ∧
      (v.passed.length < n → next w' = (.ok none, w')) := by
  obtain ⟨g, w, hg, hvisit, htake⟩ | ⟨v, w, hvisit, htake, hcount⟩ := visit_run n ⟨c, s₀⟩
  · refine .inl ⟨g, w, hvisit, htake, fun hs => ?_⟩
    have hstart := (Cursor.start_safe T s.view).run s ⟨hs, rfl⟩
    rw [h] at hstart
    have hrun := (visit_triple s.view n).run ⟨c, s₀⟩ hstart
    rw [hvisit] at hrun
    cases g with
    | refused e => exact absurd rfl (hg e)
    | misused => exact absurd rfl hrun.1
    | endless => rfl
  · exact .inr ⟨v, w, v.leave w, hvisit, htake, fun _ => Visits.mem_yielded_of_mem_read,
      Visits.yielded_eq_log_iff, hcount.length_le, hcount.turns,
      fun hlt => next_of_atEnd (hcount.ended hlt)⟩

/-- A new table after two inserts, whose two rows are the items. -/
theorem items_of_visits_two :
    let T : Tree := { root := rootPage, config := .full }
    let s := (T.establish (Pager.holding { path := defaultPath, bytes := #[], pages := 0 } 0 #[])).2
    let s' := (T.insert 3 (Vector.replicate _ 2) (T.insert 7 (Vector.replicate _ 1) s).2).2
    ∃ c s₀, Cursor.start T s' = (.ok c, s₀) ∧
      (take 3 ⟨c, s₀⟩).1 = .ok (((s'.view.cellsBelow T.root).take 3).map Cell.row) := by
  intro T s s'
  have hnew : (Pager.holding { path := defaultPath, bytes := #[], pages := 0 } 0 #[]).Sound :=
    .holding _ (Nat.le_refl 0) (by decide)
  obtain ⟨s₀, hrun, hs₀, hrooted⟩ := T.establish_run hnew (by decide) (by decide) T.config.fill
  have hs : s = s₀ := congrArg Prod.snd hrun
  have hvalid : (T.validate s').1 = .ok () := Tree.inserts_validate
    [⟨7, Vector.replicate _ 1⟩, ⟨3, Vector.replicate _ 2⟩] (hs ▸ hs₀)
    (Tree.validate_eq_ok_iff.mpr ⟨_, hs ▸ hrooted⟩)
  obtain ⟨t, ht⟩ := Tree.validate_eq_ok_iff.mp hvalid
  have hcells : s'.view.cellsBelow T.root = t.cells := ht.id_eq ▸ ht.held.unfolds.cellsBelow_eq
  obtain ⟨c, s₁, hstart, hseen, hat⟩ := Cursor.start_run ht
  obtain ⟨w, hvisit, -⟩ := visit_rooted (w := ⟨c, s₁⟩) 3 (by rwa [hseen.view]) hat
  obtain ⟨g, w', hg, -⟩ | ⟨v, w₁, w', hv, htake, -⟩ := items_of_visits T s' s₁ c hstart 3
  · rw [hvisit] at hg
    cases hg
  · rw [hvisit] at hv
    cases hv
    refine ⟨c, s₁, hstart, ?_⟩
    rw [htake, hcells, Visits.yielded, Visits.reason, Option.map_none, Option.toList_none,
      List.append_nil]

/-- **A row that is read and not answered.** The only page of a file is a leaf that is not the root
and names page 7 as its parent. The loop reads its row; the iterator answers only why it could not
move on. -/
theorem row_not_answered :
    ∃ value p s c s₀ v w items w', Row.encode ⟨5, "a"⟩ = .ok value ∧
      (Page.zero.init .leaf).write? [.parent ⟨7⟩, .body (.leaf [⟨5, value⟩])] = some p ∧
      Pager.ofFile defaultPath p.toArray = .ok s ∧
      Cursor.start { root := rootPage, config := .full } s = (.ok c, s₀) ∧
      visit 2 ⟨c, s₀⟩ = (.ok v, w) ∧ .ok ⟨5, "a"⟩ ∈ v.read ∧
      take 2 ⟨c, s₀⟩ = (.ok items, w') ∧ .ok ⟨5, "a"⟩ ∉ items ∧ items ≠ v.log := by
  obtain ⟨value, hvalue⟩ := Row.exists_encode (by decide : Row.Fits ⟨5, "a"⟩)
  have hfits : ∀ w ∈ ([.parent ⟨7⟩, .body (.leaf [⟨5, value⟩])] : List NodeWrite), w.FitsIn .leaf :=
    List.forall_mem_cons.mpr ⟨trivial, List.forall_mem_singleton.mpr
      ⟨rfl, (by decide : 1 ≤ leafCapacity)⟩⟩
  obtain ⟨p, hp, htag, hnode⟩ := Page.node_write? hfits (Page.zero.init .leaf)
  rw [Page.init_eq_empty] at htag hnode
  have hroot : p.isRoot = false := (congrArg Node.root hnode).trans (Page.isRoot_empty .leaf)
  have hparent : p.parent = ⟨7⟩ := congrArg Node.parent hnode
  have hcells : p.cells = [⟨5, value⟩] := NodeBody.leaf.inj (congrArg Node.body hnode)
  have hcount : p.count = 1 := by rw [← Page.length_cells, hcells, List.length_singleton]
  -- The file is this page, and page 7 lies behind its end.
  have hsize : p.toArray.size = 1 * pageSize := p.size_toArray
  obtain ⟨s, hopen, hs, -, -, hshown⟩ := Pager.ofFile_run defaultPath hsize (by decide)
  have hleaf : s.view.node? rootPage = some (.leaf, p) := by
    obtain ⟨d, hd⟩ := hs.view_eq (show rootPage.index < maxPages by decide)
    rw [hshown rootPage, show rootPage.offset = 0 from rfl, Page.ofBytesAt_toArray] at hd
    exact View.node?_eq_some_iff.mpr ⟨⟨d, hd⟩, htag.trans (Page.tag_empty .leaf),
      by rw [hcount]; decide⟩
  have hnone : s.view.node? p.parent = none := by
    obtain ⟨d, hd⟩ := hs.view_eq (show (⟨7⟩ : PageId).index < maxPages by decide)
    rw [hshown ⟨7⟩, Page.ofBytesAt_of_size_le (by rw [hsize]; decide)] at hd
    rw [hparent]
    exact View.node?_of_zero hd
  have hstart := Cursor.start_of_leaf (T := { root := rootPage, config := .full }) hleaf
    (by rw [hcount]; exact Nat.one_ne_zero)
  obtain ⟨e, w, hvisit⟩ := visit_of_orphan (w := ⟨{ page := rootPage }, s.fetched rootPage⟩) rfl
    (by rwa [view_fetched]) hcells hroot (by rwa [view_fetched]) 1
  have hrow : Cell.row ⟨5, value⟩ = .ok ⟨5, "a"⟩ := Row.decodePayload_of_encode hvalue
  rw [hrow] at hvisit
  obtain ⟨g, w', -, hv, -⟩ | ⟨v, w', hv, htake, -⟩ :=
    visit_run 2 ⟨{ page := rootPage }, s.fetched rootPage⟩
  · rw [hvisit] at hv
    cases hv
  · rw [hvisit] at hv
    cases hv
    refine ⟨value, p, s, _, _, _, w, _, _, hvalue, hp, hopen, hstart, hvisit, ?_, htake, ?_, ?_⟩
    · exact List.mem_singleton_self _
    · simp [Visits.yielded, Visits.reason]
    · rw [Ne, Visits.yielded_eq_log_iff]
      exact Option.some_ne_none _

end PagedTable
