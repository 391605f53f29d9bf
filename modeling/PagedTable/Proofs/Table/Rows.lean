import PagedTable.Proofs.Row.Codec
import PagedTable.Proofs.Table.Stands

/-!
# Tables of rows

Where only rows are inserted, every cell of a table encodes a row under its id.

* `Table.Lists`: the cells of a table encode these rows.
* `Lists.leadingRows_run`: they are read back in the order of ids.
* `Keeps.insertRow_run`: another row is put into the table, or refused (`Refusal`).
-/

namespace PagedTable

open PagedTable.Action Pager

namespace Table

variable {f : Fill} {t t' : Table} {T : PageTree} {rows : List Row} {row : Row}

/-- The cells of the table encode these rows, each under its id. -/
structure Lists (f : Fill) (rows : List Row) (t : Table) (T : PageTree) : Prop where
  stands : Stands f t T
  row_ok : ∀ x ∈ T.cells, ∃ row, x.row = .ok row ∧ row.id = x.key
  perm : (T.cells.map Cell.row).Perm (rows.map .ok)

namespace Lists

/-- The rows in the order of their cells. -/
theorem exists_sorted (h : Lists f rows t T) :
    ∃ sorted : List Row, T.cells.map Cell.row = sorted.map .ok ∧ sorted.map Row.id = T.keys ∧
      sorted.Perm rows := by
  have hcells : ∀ cells : List Cell, (∀ x ∈ cells, ∃ row, x.row = .ok row ∧ row.id = x.key) →
      ∃ sorted : List Row, cells.map Cell.row = sorted.map .ok ∧
        sorted.map Row.id = cells.map Cell.key := by
    intro cells hok
    induction cells with
    | nil => exact ⟨[], rfl, rfl⟩
    | cons x cells ih =>
      obtain ⟨⟨row, hrow, hid⟩, hrest⟩ := List.forall_mem_cons.mp hok
      obtain ⟨sorted, hrows, hids⟩ := ih hrest
      exact ⟨row :: sorted, by rw [List.map_cons, hrow, hrows]; rfl,
        by rw [List.map_cons, hid, hids]; rfl⟩
  obtain ⟨sorted, hrows, hids⟩ := hcells T.cells h.row_ok
  refine ⟨sorted, hrows, hids, ?_⟩
  have hperm := h.perm
  rw [hrows] at hperm
  exact (List.map_perm_map_iff fun _ _ => Except.ok.inj).mp hperm

theorem mem_keys_iff (h : Lists f rows t T) (key : Key) : key ∈ T.keys ↔ key ∈ rows.map Row.id := by
  obtain ⟨sorted, -, hids, hperm⟩ := h.exists_sorted
  rw [← hids]
  exact (hperm.map Row.id).mem_iff

theorem nodup (h : Lists f rows t T) : (rows.map Row.id).Nodup := by
  obtain ⟨sorted, -, hids, hperm⟩ := h.exists_sorted
  rw [← (hperm.map Row.id).nodup_iff, hids]
  exact h.stands.rooted.ordered.imp UInt32.ne_of_lt

/-- **The rows are read** in the order of their ids. -/
theorem leadingRows_run (h : Lists f rows t T) :
    ∃ sorted : List Row, sorted.Perm rows ∧ (sorted.map Row.id).Pairwise (· < ·) ∧
      leadingRows t = (.ok (sorted, none), t) := by
  obtain ⟨sorted, hrows, hids, hperm⟩ := h.exists_sorted
  refine ⟨sorted, hperm, hids ▸ h.stands.rooted.ordered, ?_⟩
  rw [h.stands.leadingRows_run, hrows, Row.leading_ok]

/-- **One more row.** -/
theorem grown {value : Payload} {s : Pager} (h : Lists f rows t T) (henc : row.encode = .ok value)
    (g : Growth f t T ⟨row.id, value⟩ s) (hs : s.Intact) :
    Lists f (rows ++ [row]) { t with pager := s }
      (g.spot.grown t.tree.config t.pager.count ⟨row.id, value⟩) := by
  have hrow : Cell.row ⟨row.id, value⟩ = .ok row := Row.decodePayload_of_encode henc
  refine ⟨h.stands.grown g hs, fun x hx => ?_, ?_⟩
  · rcases g.spot.mem_cells_grown.mp hx with rfl | hx
    · exact ⟨row, hrow, rfl⟩
    · exact h.row_ok x hx
  · have hperm := h.perm
    rw [g.spot.cells_eq, List.map_append] at hperm
    rw [g.spot.cells_grown, List.map_append, List.map_cons, hrow, List.map_append]
    refine List.perm_middle.trans ((hperm.cons _).trans ?_)
    exact (List.perm_append_singleton _ _).symm

end Lists

/-- The table begins at the root page and holds these rows. -/
def Keeps (rows : List Row) (t : Table) : Prop :=
  t.tree.root = rootPage ∧ ∃ T, Lists t.tree.config.fill rows t T

/-- A new table holds no rows. -/
theorem ofFile_keeps (path : String) (config : Config) :
    ∃ t, ofFile path #[] config = .ok t ∧ t.Keeps [] := by
  obtain ⟨t, hopen, htree, -, hstands⟩ := ofFile_stands path config
  refine ⟨t, hopen, congrArg Tree.root htree, .leaf rootPage [], ?_⟩
  have hconfig : t.tree.config = config := congrArg Tree.config htree
  refine ⟨hconfig ▸ hstands, ?_, ?_⟩ <;> rw [PageTree.cells_leaf]
  · exact List.forall_mem_nil _
  · exact .nil

/-- Why a row is not inserted into a table that holds `rows`. -/
inductive Refusal (rows : List Row) (row : Row) : DbError → Prop where
  | large (excess : bodyWidth < (Utf8.encode row.body).length) :
    Refusal rows row (.rowTooLarge (Utf8.encode row.body).length)
  | nul (mem : 0 ∈ Utf8.encode row.body) : Refusal rows row (.invalidRow (.nul row.id))
  | duplicate (fits : row.Fits) (mem : row.id ∈ rows.map Row.id) :
    Refusal rows row (.duplicateKey row.id)
  | full (page : PageId) (notMem : row.id ∉ rows.map Row.id) (crowded : 2 ≤ rows.length) :
    Refusal rows row (.pageOutOfBounds page)

/-- **A row is inserted** or refused. -/
theorem Keeps.insertRow_run (h : t.Keeps rows) (row : Row) :
    (∃ e, Refusal rows row e ∧ insertRow row t = (.error (.refused e), t)) ∨
      ∃ t', t'.Keeps (rows ++ [row]) ∧ insertRow row t = (.ok (), t') := by
  obtain ⟨hroot, T, hT⟩ := h
  have hintact : (insertRow row t).2.pager.Intact :=
    (Call.insertRow row).keeps Intact.closed (fun hcall => by cases hcall) hT.stands.intact
  have hrun := hT.stands.insertRow_run row
  cases henc : row.encode with
  | error e =>
    rw [henc] at hrun
    refine .inl ⟨e, ?_, hrun⟩
    rcases row.encode_eq with ⟨hok, -⟩ | ⟨herr, hexcess⟩ | ⟨herr, hnul⟩
    · cases henc.symm.trans hok
    · cases henc.symm.trans herr
      exact .large hexcess
    · cases henc.symm.trans herr
      exact .nul hnul
  | ok value =>
    rw [henc] at hrun
    have hins := hT.stands.insert_run ⟨row.id, value⟩
    rw [← show insertRow row t = insert row.id value t from hrun] at hins
    generalize insertRow row t = r at hins hintact
    cases hins with
    | duplicate mem =>
      exact .inl ⟨_, .duplicate (Row.fits_of_encode henc).2 ((hT.mem_keys_iff _).mp mem), rfl⟩
    | full page notMem crowded =>
      have hlen : T.cells.length = rows.length := by
        simpa only [List.length_map] using hT.perm.length_eq
      have hmax : 2 ≤ t.tree.config.leafMax := t.tree.config.two_le_leafMax
      exact .inl ⟨_, .full page ((hT.mem_keys_iff _).not.mp notMem) (by omega), rfl⟩
    | @added s g => exact .inr ⟨{ t with pager := s }, ⟨hroot, _, hT.grown henc g hintact⟩, rfl⟩

end Table

end PagedTable
