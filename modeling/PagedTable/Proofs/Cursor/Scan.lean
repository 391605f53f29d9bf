import PagedTable.Proofs.Cursor.Walk
import PagedTable.Proofs.Tree.Invariant

/-!
# Scanning

* `start_run`: a new cursor stands before all cells.
* `advanceBy_run`: after `n` moves it stands before all but the first `n` of them.
* `entriesFrom_run`: a scan reads them all, within the steps it may take (`length_cells_le`).
* `cursor_visits_cells`: what a cursor visits on a tree that passes the check.
-/

namespace PagedTable

open PagedTable.Action Pager Crumb

variable {s : Pager} {root : PageId} {f : Fill} {t : PageTree} {c : Cursor} {w : Walk}
  {rest : List Cell}

/-! ## How many cells there are -/

/-- Every leaf has a page of its own, which has room for `leafCapacity` cells. -/
theorem Unfolds.length_cells_le_pages {m : View} (h : Unfolds m t) :
    t.cells.length ≤ t.pages.length * leafCapacity := by
  induction h with
  | @leaf id cells p hn hc =>
    have hcap : p.count ≤ leafCapacity := View.count_le hn
    rw [PageTree.cells_leaf, PageTree.pages_leaf, ← hc, Page.length_cells, List.length_singleton,
      Nat.one_mul]
    exact hcap
  | @branch id kids p _ _ _ ih =>
    have hkids : (kids.flatMap PageTree.cells).length ≤
        (kids.flatMap PageTree.pages).length * leafCapacity := by
      clear * - ih
      induction kids with
      | nil => simp
      | cons k kids ihk =>
        obtain ⟨hk, hkids⟩ := List.forall_mem_cons.mp ih
        rw [List.flatMap_cons, List.flatMap_cons, List.length_append, List.length_append,
          Nat.add_mul]
        exact Nat.add_le_add hk (ihk hkids)
    rw [PageTree.cells_branch, PageTree.pages_branch, List.length_cons, Nat.succ_mul]
    exact Nat.le_add_right_of_le hkids

/-- The cells of a tree are no more than a scan may pass. -/
theorem Rooted.length_cells_lt (h : Rooted s.view root f t) : t.cells.length < scanLength := by
  have hpages : t.pages.length ≤ maxPages :=
    PageId.length_le_of_nodup h.nodup fun _ hid => h.held.unfolds.index_lt_of_mem_pages hid
  exact Nat.lt_succ_of_le
    (Nat.le_trans h.held.unfolds.length_cells_le_pages (Nat.mul_le_mul_right _ hpages))

/-! ## Runs -/

/-- The cursor is at the end exactly if no cell is left. -/
theorem Cursor.At.atEnd_iff (h : c.At t rest) : c.atEnd = true ↔ rest = [] := by
  cases h with
  | behind => simp
  | @on cs leaf cells i _ hlt =>
    have hne : cells.drop i ≠ [] := by simpa using hlt
    simp [hne]

/-- **A new cursor** stands before all cells. -/
theorem Cursor.start_run {T : Tree} (h : Rooted s.view T.root f t) :
    ∃ c s', Cursor.start T s = (.ok c, s') ∧ s.Seen s' ∧ c.At t t.cells := by
  have hheld : Held s.view T.root (up []) t := h.held
  obtain ⟨w, hrun, hseen, hat⟩ := Walk.descendFirst_run
    (w := { cursor := { page := T.root }, pager := s }) hheld h.within rfl h.id_eq.symm
    (fun _ => rfl) (Nat.le_succ_of_le h.held.unfolds.height_le)
  rw [rightCells_nil, List.append_nil] at hat
  refine ⟨w.cursor, w.pager, ?_, hseen, hat⟩
  unfold Cursor.start
  rw [hrun]

namespace Walk

/-- **Some moves.** The cursor goes past as many cells, and stays behind the last one. -/
theorem advanceBy_run (n : Nat) (h : Rooted w.pager.view root f t) (hat : w.cursor.At t rest) :
    ∃ w', advanceBy n w = (.ok (), w') ∧ w.pager.Seen w'.pager ∧ w'.cursor.At t (rest.drop n) := by
  induction n generalizing w rest with
  | zero => exact ⟨w, rfl, .refl _, hat⟩
  | succ n ih =>
    cases rest with
    | nil =>
      obtain ⟨w', hrun, hseen, hat'⟩ := ih h hat
      refine ⟨w', ?_, hseen, by simpa using hat'⟩
      rw [advanceBy, bind_ok (advance_of_atEnd (hat.atEnd_iff.mpr rfl)), hrun]
    | cons x rest =>
      obtain ⟨w₁, hrun₁, hseen₁, hat₁⟩ := advance_run h hat
      obtain ⟨w', hrun, hseen, hat'⟩ := ih (by rwa [hseen₁.view]) hat₁
      refine ⟨w', ?_, hseen₁.trans hseen, hat'⟩
      rw [advanceBy, bind_ok hrun₁, hrun]

/-- **A scan** reads all cells from the cursor on. -/
theorem entriesFrom_run {fuel : Nat} (h : Rooted w.pager.view root f t)
    (hat : w.cursor.At t rest) (hfuel : rest.length < fuel) :
    ∃ w', entriesFrom fuel w = (.ok (rest.map fun x => (x.key, x.value)), w') ∧
      w.pager.Seen w'.pager := by
  induction fuel generalizing w rest with
  | zero => exact absurd hfuel (Nat.not_lt_zero _)
  | succ fuel ih =>
    rw [entriesFrom, bind_ok (state_apply w)]
    cases rest with
    | nil =>
      rw [if_pos (hat.atEnd_iff.mpr rfl)]
      exact ⟨w, rfl, .refl _⟩
    | cons x rest =>
      have hmore : ¬ w.cursor.atEnd = true := fun hend => by
        cases hat.atEnd_iff.mp hend
      obtain ⟨s₁, hseen₁, hrun₁⟩ := value_run h hat
      obtain ⟨w₂, hrun₂, hseen₂, hat₂⟩ :=
        advance_run (w := { w with pager := s₁ }) (by rw [hseen₁.view]; exact h) hat
      have hseen := hseen₁.trans hseen₂
      obtain ⟨w', hrun, hseen'⟩ := ih (by rwa [hseen.view]) hat₂ (Nat.lt_of_succ_lt_succ hfuel)
      refine ⟨w', ?_, hseen.trans hseen'⟩
      rw [if_neg hmore, bind_ok hrun₁, bind_ok hrun₂, bind_ok hrun]
      rfl

end Walk

open Walk

/-- **What a cursor visits** on a tree that passes the check: the cells that a recursive descent
through the children reads, each once and in that order, which is the order of keys. -/
theorem cursor_visits_cells (T : Tree) (s : Pager) (h : (T.validate s).1 = .ok ()) :
    (s.view.keysBelow T.root).Pairwise (· < ·) ∧
    ∃ c s₀, Cursor.start T s = (.ok c, s₀) ∧
      (∀ i, ∃ w, advanceBy i ⟨c, s₀⟩ = (.ok (), w) ∧
        (w.cursor.atEnd = true ↔ (s.view.cellsBelow T.root).length ≤ i) ∧
        (∀ x, (s.view.cellsBelow T.root)[i]? = some x → (value w).1 = .ok (x.key, x.value)) ∧
        (w.cursor.atEnd = true → advance w = (.ok (), w))) ∧
      (entriesFrom scanLength ⟨c, s₀⟩).1 =
        .ok ((s.view.cellsBelow T.root).map fun x => (x.key, x.value)) := by
  obtain ⟨t, ht⟩ := Tree.validate_eq_ok_iff.mp h
  have hcells : s.view.cellsBelow T.root = t.cells := ht.id_eq ▸ ht.held.unfolds.cellsBelow_eq
  obtain ⟨c, s₀, hstart, hseen₀, hat₀⟩ := Cursor.start_run ht
  have ht₀ : Rooted s₀.view T.root T.config.fill t := by rwa [hseen₀.view]
  rw [View.keysBelow, hcells]
  refine ⟨ht.ordered, c, s₀, hstart, fun i => ?_, ?_⟩
  · obtain ⟨w, hrun, hseen, hat⟩ := advanceBy_run (w := ⟨c, s₀⟩) i ht₀ hat₀
    refine ⟨w, hrun, ?_, fun x hx => ?_, advance_of_atEnd⟩
    · rw [hat.atEnd_iff, List.drop_eq_nil_iff]
    · obtain ⟨hlt, rfl⟩ := List.getElem?_eq_some_iff.mp hx
      rw [List.drop_eq_getElem_cons hlt] at hat
      obtain ⟨s', -, hvalue⟩ := value_run (by rwa [hseen.view]) hat
      rw [hvalue]
  · obtain ⟨w, hrun, -⟩ := entriesFrom_run (w := ⟨c, s₀⟩) ht₀ hat₀ ht.length_cells_lt
    rw [hrun]

/-- A new table after two inserts. -/
theorem cursor_visits_cells_two :
    let T : Tree := { root := rootPage, config := .full }
    let s := (T.establish (Pager.holding { path := defaultPath, bytes := #[], pages := 0 } 0 #[])).2
    let s' := (T.insert 3 (Vector.replicate _ 2) (T.insert 7 (Vector.replicate _ 1) s).2).2
    (T.validate s').1 = .ok () ∧ ∃ c s₀, Cursor.start T s' = (.ok c, s₀) ∧
      (entriesFrom scanLength ⟨c, s₀⟩).1 =
        .ok ((s'.view.cellsBelow T.root).map fun x => (x.key, x.value)) := by
  intro T s s'
  have hnew : (Pager.holding { path := defaultPath, bytes := #[], pages := 0 } 0 #[]).Sound :=
    .holding _ (Nat.le_refl 0) (by decide)
  obtain ⟨s₀, hrun, hs₀, hrooted⟩ := T.establish_run hnew (by decide) (by decide) T.config.fill
  have hs : s = s₀ := congrArg Prod.snd hrun
  have hvalid : (T.validate s').1 = .ok () := Tree.inserts_validate
    [⟨7, Vector.replicate _ 1⟩, ⟨3, Vector.replicate _ 2⟩] (hs ▸ hs₀)
    (Tree.validate_eq_ok_iff.mpr ⟨_, hs ▸ hrooted⟩)
  obtain ⟨-, c, s₁, hstart, -, hscan⟩ := cursor_visits_cells T s' hvalid
  exact ⟨hvalid, c, s₁, hstart, hscan⟩

end PagedTable
