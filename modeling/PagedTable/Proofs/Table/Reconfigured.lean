import PagedTable.Proofs.Table.Sessions

/-!
# Sessions with configurations of their own

A file need not be opened with the configuration that it was written with. With a smaller one nodes
are over-full until they are split, with a larger one they are under-full for good. They are never
empty, though, and no page overflows (`Fill.loose`), and this is all that a table needs in order to
answer rightly.

* `Op.Tolerates`: what an operation may answer then. Only a check may find something wrong.
* `Serves`: sessions on one file answer as a map does, and leave the tree linked up rightly.
* `Served`: what holds between two operations. `Served.step` is one operation, `Served.reopened`
  closes the table and opens it with another configuration.
* `reconfigured_serves`: all sessions from an empty file.
-/

namespace PagedTable

namespace Table

open PagedTable.Action Pager

/-- What an operation may answer on a map, if nodes may be less full than the configuration
asks. -/
def Op.Tolerates (m : Contents) : (op : Op) → Except Fault op.Reply → Prop
  | validate, r => r = .ok () ∨ ∃ e, Tree.Misfilled e ∧ r = .error e
  | op, r => op.Agrees m r

/-- Run on the table one after the other, the operations answer as a map does that starts as `m`,
and the pages are linked up rightly after each of them. `P` holds of the map and the table that are
left. -/
def Abides : List Op → Contents → Table → (Contents → Table → Prop) → Prop
  | [], m, t, P => P m t
  | op :: ops, m, t, P =>
    op.Tolerates m (op.run t).1 ∧ (op.run t).2.pager.view.Linked t.tree.root ∧
      Abides ops (op.next m (op.run t).1) (op.run t).2 P

/-- Sessions on a file of these bytes, each with its own configuration and closed in the end, answer
as a map does that starts as `m`. The pages are linked up rightly whenever a table is open. -/
def Serves (path : String) : List (Config × List Op) → Contents → Array UInt8 → Prop
  | [], _, _ => True
  | (config, ops) :: sessions, m, bytes =>
    ∃ t, ofFile path bytes config = .ok t ∧ t.pager.view.Linked t.tree.root ∧
      Abides ops m t fun m t => ∃ bytes, close t = .ok bytes ∧ Serves path sessions m bytes

variable {m : Contents} {t : Table}

/-- What holds of a table between two operations. -/
structure Served (m : Contents) (t : Table) : Prop where
  root : t.tree.root = rootPage
  intact : t.pager.Intact
  holds : ∃ T, t.Holds .loose m T

namespace Served

theorem linked (h : Served m t) : t.pager.view.Linked t.tree.root := by
  obtain ⟨T, hT⟩ := h.holds
  exact hT.rooted.linked

/-- **One operation.** -/
theorem step (h : Served m t) (op : Op) :
    op.Tolerates m (op.run t).1 ∧ Served (op.next m (op.run t).1) (op.run t).2 := by
  obtain ⟨T, hT⟩ := h.holds
  have hintact : (op.run t).2.pager.Intact :=
    (Call.op op).keeps Intact.closed (fun _ => Intact.flush_keeps) h.intact
  by_cases hop : op = .validate
  · subst hop
    obtain ⟨r, s', hseen, hrun, hr⟩ := hT.validate_cases
    have hrun : Op.validate.run t = (r, { t with pager := s' }) := hrun
    rw [hrun] at hintact ⊢
    have hnext : Op.validate.next m r = m := rfl
    exact ⟨hr, h.root, hintact, T, hnext.symm ▸ hT.seen hseen⟩
  · obtain ⟨htree, hagrees, hT'⟩ := hT.upholds hop
    refine ⟨?_, htree ▸ h.root, hintact, hT'⟩
    cases op with
    | validate => exact absurd rfl hop
    | _ => exact hagrees

/-- **A run of operations.** -/
theorem abides {P : Contents → Table → Prop} (h : Served m t) (ops : List Op)
    (hP : ∀ {m t}, Served m t → P m t) : Abides ops m t P := by
  induction ops generalizing m t with
  | nil => exact hP h
  | cons op ops ih =>
    obtain ⟨hanswer, h'⟩ := h.step op
    have hroot : (op.run t).2.tree.root = t.tree.root := h'.root.trans h.root.symm
    exact ⟨hanswer, hroot ▸ h'.linked, ih h'⟩

/-- **A table that is closed and opened again** with another configuration. -/
theorem reopened (h : Served m t) (path : String) (config : Config) :
    ∃ bytes u, close t = .ok bytes ∧ ofFile path bytes config = .ok u ∧ Served m u := by
  obtain ⟨T, hT⟩ := h.holds
  obtain ⟨s, u, hrun, hopen, htree, halike⟩ := flush_reopened path config h.intact
  have hroot : u.tree.root = t.tree.root := by rw [htree, h.root]
  refine ⟨s.disk.bytes, u, close_run hrun, hopen, hroot.trans h.root, halike.right, T, ?_⟩
  refine ⟨halike.right.faithful.sound, halike.right.undamaged, Fill.loose_admits _, ?_, hT.cell_iff⟩
  rw [hroot]
  exact hT.rooted.mono fun id _ x hx => halike.node?_eq id ▸ hx

/-- **Sessions that go on** after the table is closed. -/
theorem serves (h : Served m t) (path : String) (sessions : List (Config × List Op)) :
    ∃ bytes, close t = .ok bytes ∧ Serves path sessions m bytes := by
  induction sessions generalizing m t with
  | nil =>
    obtain ⟨s, hrun, -⟩ := h.intact.flush_run
    exact ⟨s.disk.bytes, close_run hrun, trivial⟩
  | cons session sessions ih =>
    obtain ⟨config, ops⟩ := session
    obtain ⟨bytes, u, hclose, hopen, hu⟩ := h.reopened path config
    exact ⟨bytes, hclose, u, hopen, hu.linked, hu.abides ops ih⟩

end Served

/-- A new table. -/
theorem ofFile_served (path : String) (config : Config) :
    ∃ t, ofFile path #[] config = .ok t ∧ Served (fun _ => none) t := by
  have hnew : (#[] : Array UInt8).size = 0 * pageSize := (Nat.zero_mul _).symm
  obtain ⟨t, hopen, htree, hfaithful, hd, hpos, -⟩ :=
    ofFile_whole path config hnew (Nat.zero_le _)
  obtain ⟨t', hopen', hstores⟩ := ofFile_stores path config
  rw [hopen] at hopen'
  cases hopen'
  refine ⟨t, hopen, by rw [htree], ⟨hpos, hfaithful, hd⟩, .leaf rootPage [], ?_⟩
  refine ⟨hstores.sound, hd, Fill.loose_admits _, ?_, hstores.cell_iff⟩
  exact ⟨hstores.rooted.id_eq, hstores.rooted.held,
    PageTree.within_leaf.mpr ⟨fun h => absurd h (by decide), Nat.zero_le _⟩, hstores.rooted.ordered⟩

/-- **A table does not depend on the configuration it was written with.** From an empty file, any
sessions one after the other, each opened with a configuration of its own and closed in the end,
answer every operation as the map of all inserts that succeeded so far. After every operation keys
are in order, separators are the greatest keys below their children, parents and root flags are
right, and no node but the root is empty. Only a check may fail, and only for how full a node is. -/
theorem reconfigured_serves (path : String) (sessions : List (Config × List Op)) :
    Serves path sessions (fun _ => none) #[] := by
  cases sessions with
  | nil => trivial
  | cons session sessions =>
    obtain ⟨config, ops⟩ := session
    obtain ⟨t, hopen, ht⟩ := ofFile_served path config
    exact ⟨t, hopen, ht.linked, ht.abides ops fun h => h.serves path sessions⟩

end Table

end PagedTable
