import PagedTable.Proofs.Cursor.Rows
import PagedTable.Proofs.Table.Reconfigured
import PagedTable.Proofs.Table.Refusal

/-!
# What a call leaves

On an intact table whose pages hold a tree, a call that reads leaves the table as it was: all pages
of the tree are cached already. So does an insert that is refused.

* `Table.Stands`: an intact table and the tree that its pages hold.
* `Stands.get_run`, `Stands.leadingRows_run`, …: what is read.
* `ofFile_stands`: a new table.
* `Stands.insert_run`: an insert is refused and leaves the table as it was, or the tree grows
  (`Growth`). `insertRow_run`: a row is encoded first.
* `Call.Leaves`: all that a call can leave. `Stands.leaves`: every call keeps to it.
-/

namespace PagedTable

namespace Table

open PagedTable.Action Pager

/-- The pages of an intact table hold the tree `T`, whose nodes are as full as `f` asks. -/
structure Stands (f : Fill) (t : Table) (T : PageTree) : Prop where
  intact : t.pager.Intact
  admits : f.Admits t.tree.config
  rooted : Rooted t.pager.view t.tree.root f T

/-- The pager `s` holds the tree of the table with a new cell. -/
structure Growth (f : Fill) (t : Table) (T : PageTree) (x : Cell) (s : Pager) where
  spot : T.Spot x.key
  notMem : x.key ∉ T.keys
  room : t.pager.count + spot.cost t.tree.config ≤ maxPages
  count : s.count = t.pager.count + spot.cost t.tree.config
  rooted : Rooted s.view t.tree.root f (spot.grown t.tree.config t.pager.count x)

variable {f : Fill} {t : Table} {T : PageTree}

/-- All that an insert of a cell can come to. -/
inductive Inserted (f : Fill) (t : Table) (T : PageTree) (x : Cell) :
    Except Fault Unit × Table → Prop
  /-- The key is in the table. -/
  | duplicate (mem : x.key ∈ T.keys) :
    Inserted f t T x (.error (.refused (.duplicateKey x.key)), t)
  /-- The table cannot hold the pages that the splits take. There is a full leaf, then. -/
  | full (page : PageId) (notMem : x.key ∉ T.keys)
    (crowded : t.tree.config.leafMax ≤ T.cells.length) :
    Inserted f t T x (.error (.refused (.pageOutOfBounds page)), t)
  /-- The tree has grown. -/
  | added {s : Pager} (growth : Growth f t T x s) : Inserted f t T x (.ok (), { t with pager := s })

namespace Stands

theorem loosen {c : Config} (h : Stands c.fill t T) : Stands .loose t T :=
  ⟨h.intact, Fill.loose_admits _, h.rooted.loosen⟩

theorem sound (h : Stands f t T) : t.pager.Sound := h.intact.faithful.sound

/-- Loading nodes of the tree changes nothing. -/
theorem seen {s : Pager} (h : Stands f t T) (hseen : t.pager.Seen s) : s = t.pager :=
  h.intact.faithful.seen hseen

/-! ## Reading -/

theorem search_run (h : Stands f t T) (key : Key) :
    ∃ (sp : T.Spot key) (found : Bool), (found = true ↔ key ∈ T.keys) ∧
      onTree (·.search key) t = (.ok ⟨sp.leaf, sp.index, found⟩, t) := by
  obtain ⟨sp, found, s, hfound, hseen, hrun⟩ := Tree.search_run h.rooted key
  obtain rfl := h.seen hseen
  exact ⟨sp, found, hfound, onTree_run (x := (·.search key)) hrun⟩

theorem value_run (h : Stands f t T) (key : Key) :
    ∃ r, onTree (·.get key) t = (.ok r, t) ∧ ∀ value, r = some value ↔ ⟨key, value⟩ ∈ T.cells := by
  obtain ⟨r, s, hseen, hrun, hr⟩ := Tree.get_run h.rooted key
  obtain rfl := h.seen hseen
  exact ⟨r, onTree_run (x := (·.get key)) hrun, hr⟩

theorem get_run (h : Stands f t T) (key : Key) : ∃ r, get key t = (r, t) := by
  obtain ⟨found, s, hseen, hrun, -⟩ := Tree.get_run h.rooted key
  obtain rfl := h.seen hseen
  exact ⟨Op.decoded found, get_of_value hrun⟩

/-- A cursor that starts on the first row. -/
theorem start_run (h : Stands f t T) :
    ∃ c, Cursor.start t.tree t.pager = (.ok c, t.pager) ∧ c.At T T.cells := by
  obtain ⟨c, s, hstart, hseen, hat⟩ := Cursor.start_run h.rooted
  obtain rfl := h.seen hseen
  exact ⟨c, hstart, hat⟩

theorem scan_run (h : Stands f t T) :
    scan t = (.ok (T.cells.map fun x => (x.key, x.value)), t) := by
  obtain ⟨c, hstart, hat⟩ := h.start_run
  obtain ⟨⟨d, s⟩, hrun, hseen⟩ := Walk.entriesFrom_run (w := ⟨c, t.pager⟩) h.rooted hat
    h.rooted.length_cells_lt
  obtain rfl : s = t.pager := h.seen hseen
  exact walking_run (x := fun _ => Walk.entriesFrom scanLength) hstart hrun

/-- **The leading rows** are those that the cells of the tree encode. -/
theorem leadingRows_run (h : Stands f t T) :
    leadingRows t = (.ok (Row.leading (T.cells.map Cell.row)), t) := by
  obtain ⟨c, hstart, hat⟩ := h.start_run
  obtain ⟨⟨d, s⟩, hrun, hseen⟩ := Walk.rowsFrom_run (w := ⟨c, t.pager⟩) h.rooted hat
    h.rooted.length_cells_lt
  obtain rfl : s = t.pager := h.seen hseen
  exact walking_run (x := fun _ => Walk.rowsFrom scanLength) hstart hrun

theorem select_run (h : Stands f t T) : ∃ r, select t = (r, t) := by
  unfold select
  rw [bind_ok h.leadingRows_run]
  rcases Row.leading (T.cells.map Cell.row) with ⟨rows, flaw⟩
  cases flaw <;> exact ⟨_, rfl⟩

theorem validate_run (h : Stands f t T) : ∃ r, validate t = (r, t) := by
  obtain ⟨r, s, hseen, hrun, -⟩ := Tree.validate_cases h.rooted
  obtain rfl := h.seen hseen
  exact ⟨r, onTree_run (x := Tree.validate) hrun⟩

/-- A check passes if nodes are as full as the configuration asks. -/
theorem validate_ok (h : Stands t.tree.config.fill t T) : validate t = (.ok (), t) := by
  obtain ⟨s, hseen, hrun⟩ := Tree.validate_run h.rooted
  obtain rfl := h.seen hseen
  exact onTree_run (x := Tree.validate) hrun

theorem dump_run (h : Stands f t T) :
    dump t = (.ok (String.join ((T.outline 0).map OutlineLine.render)), t) := by
  obtain ⟨s, hseen, hrun⟩ := Tree.dump_run h.rooted
  obtain rfl := h.seen hseen
  exact onTree_run (x := Tree.dump) hrun

/-! ## Inserting -/

/-- **An insert** leaves the table as it was or puts a cell into its tree. -/
theorem insert_run (h : Stands f t T) (x : Cell) :
    Inserted f t T x (insert x.key x.value t) := by
  have hr := PagedTable.insert_run h.admits h.sound h.rooted x
  generalize hrun : t.tree.insert x.key x.value t.pager = r at hr
  obtain ⟨r, s⟩ := r
  have hop : insert x.key x.value t = (r, { t with pager := s }) :=
    onTree_run (x := (·.insert x.key x.value)) hrun
  rw [hop]
  cases hr with
  | duplicate mem seen =>
    obtain rfl := h.seen seen
    exact .duplicate mem
  | full sp notMem excess seen =>
    obtain rfl := h.seen seen
    refine .full _ notMem ?_
    by_contra hroom
    have hlen := sp.cells_sublist.length_le
    have hcount := h.sound.count_le
    rw [sp.cost_of_room (by omega)] at excess
    omega
  | added sp notMem room _ count rooted => exact .added ⟨sp, notMem, room, count, rooted⟩

/-- A row that is inserted is encoded first. Where the cursor stands makes no difference. -/
theorem rowAt_run (c : Cursor) (row : Row) (t : Table) :
    (Insertion.rowAt c row).run t = match row.encode with
      | .error e => (.error (.refused e), t)
      | .ok value => insert row.id value t := by
  have hrun : (Insertion.rowAt c row).run t =
      onTree (fun tree => walking.onCursor c (Walk.insertRow tree row)) t := rfl
  rw [hrun]
  cases henc : row.encode with
  | error e =>
    have hcursor : walking.onCursor c (Walk.insertRow t.tree row) t.pager =
        (.error (.refused e), t.pager) := by
      rw [walking.onCursor, Walk.insertRow, henc, bind_error (ofExcept_error_apply e _)]
    exact onTree_run hcursor
  | ok value =>
    have hcursor : walking.onCursor c (Walk.insertRow t.tree row) t.pager =
        t.tree.insert row.id value t.pager := by
      rw [walking.onCursor, Walk.insertRow, henc, bind_ok (ofExcept_ok_apply value _)]
      rfl
    exact onTree_run hcursor

theorem insertRow_run (h : Stands f t T) (row : Row) :
    insertRow row t = match row.encode with
      | .error e => (.error (.refused e), t)
      | .ok value => insert row.id value t := by
  obtain ⟨c, hstart, -⟩ := h.start_run
  rw [← rowAt_run c row t]
  exact walking_run (x := (Walk.insertRow · row)) hstart rfl

/-- **Every way of inserting** leaves the table as it was or puts a cell into its tree. -/
theorem insertion_run (h : Stands f t T) (i : Insertion) :
    (i.run t).2 = t ∨ ∃ x, Inserted f t T x (i.run t) := by
  have hrow : ∀ row : Row, ∀ r, (r = match row.encode with
      | .error e => (.error (.refused e), t)
      | .ok value => insert row.id value t) → r.2 = t ∨ ∃ x, Inserted f t T x r := by
    rintro row _ rfl
    cases row.encode with
    | error e => exact .inl rfl
    | ok value => exact .inr ⟨⟨row.id, value⟩, h.insert_run _⟩
  cases i with
  | entry key value => exact .inr ⟨⟨key, value⟩, h.insert_run _⟩
  | row r => exact hrow r _ (h.insertRow_run r)
  | rowAt c r => exact hrow r _ (rowAt_run c r t)

/-- What a grown tree leaves of the table. -/
theorem grown {s : Pager} {x : Cell} (h : Stands f t T) (g : Growth f t T x s) (hs : s.Intact) :
    Stands f { t with pager := s } (g.spot.grown t.tree.config t.pager.count x) :=
  ⟨hs, h.admits, g.rooted⟩

end Stands

/-- **A new table** has a leaf without cells. -/
theorem ofFile_stands (path : String) (config : Config) :
    ∃ t, ofFile path #[] config = .ok t ∧ t.tree = ⟨rootPage, config⟩ ∧ t.pager.count = 1 ∧
      Stands config.fill t (.leaf rootPage []) := by
  have hnew : (#[] : Array UInt8).size = 0 * pageSize := (Nat.zero_mul _).symm
  obtain ⟨t, hopen, htree, hfaithful, hd, hpos, -⟩ :=
    ofFile_whole path config hnew (Nat.zero_le _)
  obtain ⟨t₁, hopen₁, hcount, -⟩ := ofFile_empty path config
  obtain ⟨t₂, hopen₂, hstores⟩ := ofFile_stores path config
  obtain rfl : t = t₁ := Except.ok.inj (hopen.symm.trans hopen₁)
  obtain rfl : t = t₂ := Except.ok.inj (hopen.symm.trans hopen₂)
  have hrooted := hstores.rooted
  rw [htree] at hrooted
  refine ⟨t, hopen, htree, hcount, ⟨hpos, hfaithful, hd⟩, ?_, htree ▸ hrooted⟩
  rw [htree]
  exact config.fill_admits

/-! ## Calls -/

/-- All that a call can leave of a table whose pages hold the tree `T`. -/
inductive Call.Leaves (f : Fill) (t : Table) (T : PageTree) : Call → Table → Prop where
  | same (call : Call) : Leaves f t T call t
  | grown {call : Call} {x : Cell} {s : Pager} (growth : Growth f t T x s) :
    Leaves f t T call { t with pager := s }
  /-- The table was written back. -/
  | saved {s : Pager} (alike : Alike t.pager s) : Leaves f t T (.op .flush) { t with pager := s }
  /-- Any page may have been loaded. -/
  | loaded {id : PageId} {s : Pager} (rooted : Rooted s.view t.tree.root f T) :
    Leaves f t T (.greatest id) { t with pager := s }

variable {t' : Table} {call : Call}

theorem Call.Leaves.of_eq (h : t' = t) : call.Leaves f t T t' := h ▸ .same call

theorem Inserted.leaves {x : Cell} {r : Except Fault Unit × Table} (h : Inserted f t T x r) :
    call.Leaves f t T r.2 := by
  cases h with
  | duplicate => exact .same call
  | full => exact .same call
  | added growth => exact .grown growth

/-- Looking for a greatest key leaves the pages of the tree as they are. -/
theorem greatest_leaves (h : Stands f t T) (id : PageId) :
    (Call.greatest id).Leaves f t T ((Call.greatest id).run t).2 := by
  have hreads : Keeps (Spared t.pager.view t.pager.count [] []) (Tree.greatest id) :=
    (Tree.greatest_respects spared_reads id).keeps
  have hspared := hreads _ (.of_frame h.sound (Nat.le_refl _) fun _ _ => rfl)
  have hrooted : Rooted (Tree.greatest id t.pager).2.view t.tree.root f T :=
    h.rooted.mono fun page _ x hn => by
      rw [View.node?_congr (hspared.frame (h.sound.index_lt_count hn) List.not_mem_nil
        List.not_mem_nil), hn]
  exact .loaded hrooted

/-- **Every call** leaves the table as it was, or puts a cell into its tree, or is one of the two
that change how pages are cached. -/
theorem Stands.leaves (h : Stands f t T) (call : Call) : call.Leaves f t T (call.run t).2 := by
  cases call with
  | op o =>
    cases o with
    | insert key value => exact (h.insert_run ⟨key, value⟩).leaves
    | get key =>
      obtain ⟨r, hrun, -⟩ := h.value_run key
      exact .of_eq (congrArg Prod.snd hrun)
    | getRow key =>
      obtain ⟨r, hrun⟩ := h.get_run key
      exact .of_eq (congrArg Prod.snd hrun)
    | search key =>
      obtain ⟨sp, found, -, hrun⟩ := h.search_run key
      exact .of_eq (congrArg Prod.snd hrun)
    | scan => exact .of_eq (congrArg Prod.snd h.scan_run)
    | validate =>
      obtain ⟨r, hrun⟩ := h.validate_run
      exact .of_eq (congrArg Prod.snd hrun)
    | dump => exact .of_eq (congrArg Prod.snd h.dump_run)
    | flush =>
      obtain ⟨s, hrun, halike, -⟩ := h.intact.flush_run
      have hop : (Call.op .flush).run t = (.ok (), { t with pager := s }) :=
        onTree_run (x := fun _ => Pager.flush) hrun
      rw [hop]
      exact .saved halike
  | insertRow row =>
    show (Call.insertRow row).Leaves f t T (insertRow row t).2
    rw [h.insertRow_run]
    cases row.encode with
    | error e => exact .same _
    | ok value => exact (h.insert_run ⟨row.id, value⟩).leaves
  | greatest id => exact greatest_leaves h id
  | select =>
    obtain ⟨r, hrun⟩ := h.select_run
    exact .of_eq (congrArg Prod.snd hrun)

end Table

end PagedTable
