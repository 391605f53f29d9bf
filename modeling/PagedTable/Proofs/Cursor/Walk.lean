import PagedTable.Proofs.PageTree.Crumb
import PagedTable.Proofs.PageTree.Spot
import PagedTable.Proofs.Tree.Rounds

/-!
# Cursors on a whole tree

`Cursor.At t rest c`: cursor `c` stands in tree `t`, and `rest` are the cells from it on.

* `descendFirst_run`: going down to the first leaf below a page.
* `climb_run`: going up to the first branch with a next child, and down again (`next_run`).
* `value_node`, `advance_node`: a cursor does not ask what kind of node its page is.
* `value_run`, `advance_run`: on a whole tree it reads the first of the cells from it on, and goes
  past it.
-/

namespace PagedTable

open PagedTable.Action Pager Crumb
open PageTree (plug)

variable {root : PageId} {f : Fill} {top : Bool} {t u : PageTree} {c : Crumb} {cs : List Crumb}
  {w : Walk} {x : Cell} {rest : List Cell}

/-- The cursor stands before the cells `rest` of the tree, and after all others. -/
inductive Cursor.At (t : PageTree) : List Cell → Cursor → Prop where
  | on {cs : List Crumb} {leaf : PageId} {cells : List Cell} {i : Nat}
    (plug_eq : plug cs (.leaf leaf cells) = t) (lt : i < cells.length) :
    At t (cells.drop i ++ rightCells cs) { page := leaf, cell := i }
  | behind (leaf : PageId) (i : Nat) : At t [] { page := leaf, cell := i, atEnd := true }

/-- A cursor that starts on a root that is a leaf starts on its first cell. -/
theorem Cursor.At.eq_of_leaf {id : PageId} {cells : List Cell} {d : Cursor}
    (h : d.At (.leaf id cells) rest) (hrest : rest = cells) (hne : cells ≠ []) :
    d = { page := id } := by
  cases h with
  | behind => exact absurd hrest.symm hne
  | @on cs leaf cells' i hplug hlt =>
    obtain rfl := PageTree.eq_nil_of_plug_eq_leaf hplug
    rw [PageTree.plug_nil, PageTree.leaf.injEq] at hplug
    obtain ⟨rfl, rfl⟩ := hplug
    have hlen := congrArg List.length hrest
    rw [rightCells_nil, List.append_nil, List.length_drop] at hlen
    obtain rfl : i = 0 := by omega
    rfl

namespace Walk

/-- Loading a node that the view shows. -/
theorem node_run {id : PageId} {kind : NodeKind} {p : Page}
    (h : w.pager.view.node? id = some (kind, p)) :
    Walk.node id w = (.ok (kind, p), { w with pager := w.pager.fetched id }) := by
  unfold Walk.node onPager onPart
  rw [Pager.node_run h]

theorem move_run (g : Cursor → Cursor) (w : Walk) :
    move g w = (.ok (), { w with cursor := g w.cursor }) := rfl

/-- **Down to the first leaf.** The cells from the cursor on are those of the subtree and all that
come after it. -/
theorem descendFirst_run {fuel : Nat} (h : Held w.pager.view root (up cs) u)
    (hw : u.Within f top) (ht : plug cs u = t) (hpage : w.cursor.page = u.id)
    (hne : u.cells = [] → rightCells cs = []) (hfuel : u.height ≤ fuel) :
    ∃ w', descendFirst fuel w = (.ok (), w') ∧ w.pager.Seen w'.pager ∧
      w'.cursor.At t (u.cells ++ rightCells cs) := by
  induction fuel generalizing u cs w top with
  | zero => exact absurd hfuel (Nat.not_le.mpr u.height_pos)
  | succ fuel ih =>
    rw [descendFirst, bind_ok (state_apply w), hpage]
    cases h with
    | @leaf _ id cells p hn _ hc =>
      rw [PageTree.id_leaf, bind_ok (node_run hn)]
      refine ⟨_, move_run _ _, .node hn, ?_⟩
      dsimp only
      rw [PageTree.cells_leaf] at hne ⊢
      rw [hpage, PageTree.id_leaf]
      have hcount : p.count = cells.length := by rw [← hc, Page.length_cells]
      by_cases hempty : p.count = 0
      · have hnil : cells = [] := List.length_eq_zero_iff.mp (hcount ▸ hempty)
        rw [hnil, hne hnil, decide_eq_true hempty]
        exact .behind id 0
      · rw [decide_eq_false hempty]
        exact .on ht (Nat.pos_of_ne_zero (hcount ▸ hempty))
    | @branch _ id kids p hn _ hc _ hk =>
      rw [PageTree.within_branch] at hw
      have hlen := Page.count_of_children hc
      have hkids := PageTree.two_le_kids hw.1.1
      cases kids with
      | nil => simp at hkids
      | cons k kids =>
        have hfirst : p.child? 0 = some k.id :=
          Page.child?_of_getElem? (View.count_le hn) (by rw [hc]; rfl)
        have hkmem : k ∈ k :: kids := List.mem_cons_self
        have hheight := PageTree.height_lt_of_mem_kids (i := id) hkmem
        have hwk := hw.2 k hkmem
        rw [PageTree.id_branch, bind_ok (node_run hn)]
        dsimp only
        rw [if_neg (by omega), hfirst, bind_ok (need_some_apply _ _), bind_ok (move_run _ _)]
        have hheld : Held (w.pager.fetched id).view root (up (⟨id, [], kids⟩ :: cs)) k := by
          rw [view_fetched]
          exact hk k hkmem
        obtain ⟨w', hrun, hseen, hat⟩ := ih (w := ⟨{ w.cursor with page := k.id }, _⟩) hheld hwk ht
          rfl (fun hnil => absurd hnil hwk.cells_ne_nil) (by omega)
        refine ⟨w', hrun, (Seen.node hn).trans hseen, ?_⟩
        rw [PageTree.cells_branch, List.flatMap_cons, List.append_assoc]
        exact hat

/-- Down into the next child of a branch. -/
theorem next_run {k : PageTree} {after : List PageTree} (h : Rooted w.pager.view root f t)
    (ht : plug (c :: cs) u = t) (hafter : c.after = k :: after) :
    ∃ w', (do
        move fun d => { d with page := k.id }
        descendFirst walkLength) w = (.ok (), w') ∧
      w.pager.Seen w'.pager ∧ w'.cursor.At t (rightCells (c :: cs)) := by
  have hplug : plug (⟨c.id, c.before ++ [u], after⟩ :: cs) k = t := by
    rw [← ht, PageTree.plug_cons, PageTree.plug_cons, around, around, hafter]
    simp
  have hwithin := h.within
  rw [← ht] at hwithin
  have hk : k.Within f false := by
    refine (PageTree.within_plug.mp hwithin).2.1.2 k ?_
    rw [beside, hafter]
    simp
  have hheld : Held w.pager.view root (up (⟨c.id, c.before ++ [u], after⟩ :: cs)) k :=
    Held.of_plug (hplug ▸ h.held)
  have hheight : k.height ≤ walkLength := by
    have hle := PageTree.height_plug (⟨c.id, c.before ++ [u], after⟩ :: cs) k
    rw [hplug] at hle
    exact Nat.le_succ_of_le (Nat.le_trans (Nat.le_of_add_left_le hle) h.held.unfolds.height_le)
  obtain ⟨w', hrun, hseen, hat⟩ := descendFirst_run
    (w := { w with cursor := { w.cursor with page := k.id } }) hheld hk hplug rfl
    (fun hnil => absurd hnil hk.cells_ne_nil) hheight
  refine ⟨w', by rw [bind_ok (move_run _ _), hrun], hseen, ?_⟩
  rw [rightCells_cons, hafter, List.flatMap_cons, List.append_assoc]
  exact hat

/-- A climb is over at the root. -/
theorem climbing_top (h : Rooted w.pager.view root f t) :
    climbing.round t.id w =
      (.ok (.inl ()), ⟨{ w.cursor with atEnd := true }, w.pager.fetched t.id⟩) := by
  obtain ⟨kind, p, hn, hisRoot⟩ := h.held.node_of_eq_root h.id_eq
  dsimp only [climbing]
  rw [bind_ok (node_run hn)]
  dsimp only
  rw [if_pos hisRoot]
  rfl

/-- A climb goes on from a branch if it comes from its last child. -/
theorem climbing_step (h : Rooted w.pager.view root f t) (ht : plug (c :: cs) u = t) :
    ∃ s', w.pager.Seen s' ∧
      (c.after = [] → climbing.round u.id w = (.ok (.inr c.id), ⟨w.cursor, s'⟩)) ∧
      ∀ {k after}, c.after = k :: after → climbing.round u.id w =
        (do
          move fun d => { d with page := k.id }
          descendFirst walkLength
          return Sum.inl ()) ⟨w.cursor, s'⟩ := by
  have hplug := h.held
  have hnd := h.nodup
  have hid := h.id_eq
  rw [← ht] at hplug hnd hid
  obtain ⟨kind, p, hn, hisRoot, hparent⟩ :=
    (Held.of_plug hplug).node_of_ne_root (hid ▸ PageTree.id_ne_plug hnd)
  obtain ⟨q, hq, hchildren, hcount⟩ := hplug.node_of_plug
  have hindex := Page.indexOf?_of_children (View.count_le hq) hchildren
    (PageTree.id_notMem_before hnd)
  rw [List.length_map] at hindex
  have hq' := hq
  rw [← view_fetched w.pager u.id] at hq'
  refine ⟨(w.pager.fetched u.id).fetched c.id, (Seen.node hn).trans (.node hq'), ?_⟩
  dsimp only [climbing]
  rw [bind_ok (node_run hn)]
  dsimp only
  rw [if_neg hisRoot, hparent, bind_ok (node_run (w := ⟨w.cursor, w.pager.fetched u.id⟩) hq')]
  dsimp only
  rw [hindex, bind_ok (need_some_apply _ _)]
  dsimp only
  rw [hcount, beside, List.length_append]
  constructor
  · intro hafter
    rw [if_pos (by rw [hafter]; rfl), pure_apply]
  · intro k after hafter
    have hnext : q.child? (c.before.length + 1) = some k.id := by
      refine Page.child?_of_getElem? (View.count_le hq) ?_
      rw [hchildren, hafter, List.getElem?_append_right (by simp)]
      simp
    rw [if_neg (by simp [hafter]), hnext, bind_ok (need_some_apply _ _)]

/-- **Up to the first branch with a next child**, and down again. The cells from the cursor on are
those that come after the subtree it leaves. -/
theorem climb_run {fuel : Nat} (h : Rooted w.pager.view root f t) (ht : plug cs u = t)
    (hfuel : cs.length < fuel) :
    ∃ w', climb fuel u.id w = (.ok (), w') ∧ w.pager.Seen w'.pager ∧
      w'.cursor.At t (rightCells cs) := by
  induction cs generalizing u w fuel with
  | nil =>
    obtain ⟨fuel, rfl⟩ := Nat.exists_eq_succ_of_ne_zero (Nat.ne_of_gt hfuel)
    obtain rfl : u = t := ht
    obtain ⟨kind, p, hn, -⟩ := h.held.node
    exact ⟨_, Loop.walk_of_done (climbing_top h), .node hn, .behind _ _⟩
  | cons c cs ih =>
    obtain ⟨fuel, rfl⟩ := Nat.exists_eq_succ_of_ne_zero (Nat.ne_of_gt (Nat.lt_trans
      (Nat.succ_pos _) hfuel))
    obtain ⟨s, hseen, hlast, hnext⟩ := climbing_step h ht
    rw [← hseen.view] at h
    cases hafter : c.after with
    | nil =>
      obtain ⟨w', hrun, hseen', hat⟩ := ih (u := c.around [u]) (w := ⟨w.cursor, s⟩) h ht
        (Nat.lt_of_succ_lt_succ hfuel)
      rw [rightCells_cons, hafter]
      exact ⟨w', (Loop.walk_of_next (hlast hafter)).trans hrun, hseen.trans hseen', hat⟩
    | cons k after =>
      obtain ⟨w', hrun, hseen', hat⟩ := next_run (w := ⟨w.cursor, s⟩) h ht hafter
      refine ⟨w', (Loop.walk_of_round (hnext hafter)).trans ?_, hseen.trans hseen', hat⟩
      simpa only [bind_assoc, pure_bind, proceed, bind_pure_unit] using hrun

/-- Reading takes the bytes where the cell would stand, whatever kind of node is there. -/
theorem value_node {kind : NodeKind} {p : Page}
    (hn : w.pager.view.node? w.cursor.page = some (kind, p)) (hend : w.cursor.atEnd = false) :
    value w = (match p.cell? w.cursor.cell with
      | some x => .ok (x.key, x.value)
      | none => .error .misused, { w with pager := w.pager.fetched w.cursor.page }) := by
  rw [value, bind_ok (state_apply w), bind_ok (require_apply_of hend w), bind_ok (node_run hn)]
  dsimp only
  cases p.cell? w.cursor.cell <;> rfl

/-- **Reading.** The cursor reads the first of the cells from it on. -/
theorem value_run (h : Rooted w.pager.view root f t) (hat : w.cursor.At t (x :: rest)) :
    ∃ s', w.pager.Seen s' ∧ value w = (.ok (x.key, x.value), { w with pager := s' }) := by
  obtain ⟨c, s⟩ := w
  generalize hcells : x :: rest = cells at hat
  cases hat with
  | behind => cases hcells
  | @on cs leaf cells i hplug hlt =>
    obtain ⟨p, hn, -, rfl, hcount⟩ := Held.leaf_of_plug (hplug ▸ h.held)
    rw [List.drop_eq_getElem_cons hlt, List.cons_append, List.cons.injEq] at hcells
    have hcell : p.cell? i = some x := by
      refine Page.cell?_of_getElem? (View.count_le hn) ?_
      rw [List.getElem?_eq_getElem hlt, hcells.1]
    refine ⟨s.fetched leaf, .node hn, ?_⟩
    rw [value_node hn rfl]
    dsimp only
    rw [hcell]

/-- A cursor goes as far as its node counts and climbs from there, whatever kind of node it is. -/
theorem advance_node {kind : NodeKind} {p : Page}
    (hn : w.pager.view.node? w.cursor.page = some (kind, p)) (hend : w.cursor.atEnd = false) :
    advance w = (if w.cursor.cell + 1 < p.count then move fun c => { c with cell := c.cell + 1 }
      else climb walkLength w.cursor.page) { w with pager := w.pager.fetched w.cursor.page } := by
  rw [advance, bind_ok (state_apply w)]
  dsimp only
  rw [if_neg (by rw [hend]; exact Bool.false_ne_true), bind_ok (node_run hn)]

/-- **Moving on.** The cursor goes past the first of the cells from it on. -/
theorem advance_run (h : Rooted w.pager.view root f t) (hat : w.cursor.At t (x :: rest)) :
    ∃ w', advance w = (.ok (), w') ∧ w.pager.Seen w'.pager ∧ w'.cursor.At t rest := by
  obtain ⟨c, s⟩ := w
  generalize hcells : x :: rest = cells at hat
  cases hat with
  | behind => cases hcells
  | @on cs leaf cells i hplug hlt =>
    obtain ⟨p, hn, -, -, hcount⟩ := Held.leaf_of_plug (hplug ▸ h.held)
    rw [List.drop_eq_getElem_cons hlt, List.cons_append, List.cons.injEq] at hcells
    obtain ⟨-, rfl⟩ := hcells
    rw [advance_node (w := ⟨_, s⟩) hn rfl]
    dsimp only
    rw [hcount]
    by_cases hnext : i + 1 < cells.length
    · rw [if_pos hnext, move_run]
      exact ⟨_, rfl, .node hn, .on hplug hnext⟩
    · have hlen := h.held.unfolds.length_crumbs_lt hplug
      rw [if_neg hnext, List.drop_eq_nil_of_le (by omega), List.nil_append]
      obtain ⟨w', hrun, hseen, hat⟩ := climb_run
        (w := ⟨{ page := leaf, cell := i }, s.fetched leaf⟩) (by rw [view_fetched]; exact h) hplug
        hlen
      exact ⟨w', hrun, (Seen.node hn).trans hseen, hat⟩

/-- At the end the cursor stays. -/
theorem advance_of_atEnd (h : w.cursor.atEnd = true) : advance w = (.ok (), w) := by
  rw [advance, bind_ok (state_apply w), h]
  rfl

end Walk

end PagedTable
