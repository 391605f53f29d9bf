import PagedTable.Proofs.Pager.Faithful
import PagedTable.Proofs.Table.Contents

/-!
# Refused inserts

An insert that is refused leaves the table as it was, wherever the refusal comes from: before
anything is written, the key has been looked for, and the pages that splits take have been counted.

* `Pager.Loaded`: the pager after some nodes were loaded. What was cached is cached as it was.
* `Insertion`: the ways of inserting; `Insertion.Refuses` says which errors they may answer.
* `insertion_refused`: an insert that fails on a table that passes the check changes nothing.
-/

namespace PagedTable

open PagedTable.Action

namespace Pager

variable {s s' s'' : Pager}

/-- The pager is as it was, but for pages that were loaded from the file. -/
structure Loaded (s s' : Pager) : Prop where
  count : s'.count = s.count
  bytes : s'.disk.bytes = s.disk.bytes
  cached : ∀ {id f}, s.frame? id = some f → s'.frame? id = some f
  loaded : ∀ {id f}, s.frame? id = none → s'.frame? id = some f →
    f = { page := Page.ofBytesAt s.disk.bytes id.offset }

/-- Loading nodes that pass for nodes loads pages from the file. -/
theorem Seen.loaded (h : s.Seen s') (hs : s.Sound) : Loaded s s' := by
  induction h with
  | refl => exact ⟨rfl, rfl, fun hf => hf, fun hf hf' => by rw [hf] at hf'; cases hf'⟩
  | @tail s₁ _ hseen hstep ih =>
    obtain ⟨id, hnode, rfl⟩ := hstep
    obtain ⟨⟨kind, p⟩, hn⟩ := Option.isSome_iff_exists.mp hnode
    obtain ⟨hs₁, -⟩ := Seen.sound hseen hs
    obtain ⟨⟨d, hv⟩, -⟩ := View.node?_eq_some_iff.mp hn
    refine ⟨(count_fetched_of_lt (hs₁.index_lt_count hn)).trans ih.count,
      (bytes_fetched s₁ id).1.trans ih.bytes, fun {j f} hf => ?_, fun {j f} hf hf' => ?_⟩
    · rw [frame?_fetched hv]
      split
      · rename_i hj
        subst hj
        rw [← view_of_frame? (index_lt_of_frame? (ih.cached hf)) (ih.cached hf), hv]
      · exact ih.cached hf
    · rw [frame?_fetched hv] at hf'
      split at hf'
      · rename_i hj
        subst hj
        cases hf₁ : s₁.frame? j with
        | some g =>
          rw [view_of_frame? (index_lt_of_view hv) hf₁] at hv
          rw [← hv] at hf'
          rw [← Option.some.inj hf', ih.loaded hf hf₁]
        | none =>
          obtain ⟨hpages, hbytes, -⟩ := file_of_node? hf₁ hn
          rw [view_of_file (index_lt_of_view hv) hf₁ hpages hbytes] at hv
          rw [← hv] at hf'
          rw [← Option.some.inj hf', ih.bytes]
      · exact ih.loaded hf hf'

end Pager

namespace Table

open Pager

/-- A way of inserting an entry. -/
inductive Insertion where
  | entry (key : Key) (value : Payload)
  /-- A row, under its id. -/
  | row (row : Row)
  /-- A row, through a cursor that stands anywhere. -/
  | rowAt (cursor : Cursor) (row : Row)

namespace Insertion

/-- Carries out an insertion. -/
def run : Insertion → Action Table Unit
  | entry key value => Table.insert key value
  | row r => Table.insertRow r
  | rowAt cursor r => onTree fun tree => walking.onCursor cursor (Walk.insertRow tree r)

/-- The errors with which an insertion may be refused. -/
def Refuses : Insertion → DbError → Prop
  | entry key _, e => e = .duplicateKey key ∨ ∃ page, e = .pageOutOfBounds page
  | row r, e | rowAt _ r, e =>
    e = .rowTooLarge (Utf8.encode r.body).length ∨ e = .invalidRow (.nul r.id) ∨
      e = .duplicateKey r.id ∨ ∃ page, e = .pageOutOfBounds page

end Insertion

variable {t t' : Table} {T : PageTree} {s s' : Pager} {e : Fault}

/-- **A refused insert** has loaded nodes and changed nothing. -/
theorem insert_refused {tree : Tree} (hs : s.Sound)
    (h : Rooted s.view tree.root tree.config.fill T) {key : Key} {value : Payload}
    (hrun : tree.insert key value s = (.error e, s')) :
    (∃ d, e = .refused d ∧ (Insertion.entry key value).Refuses d) ∧ s.Seen s' := by
  have hr := PagedTable.insert_run tree.config.fill_admits hs h ⟨key, value⟩
  rw [hrun] at hr
  cases hr with
  | duplicate mem seen => exact ⟨⟨_, rfl, .inl rfl⟩, seen⟩
  | full sp notMem excess seen => exact ⟨⟨_, rfl, .inr ⟨_, rfl⟩⟩, seen⟩

theorem encode_eq_error {row : Row} {d : DbError} (h : row.encode = .error d) :
    d = .rowTooLarge (Utf8.encode row.body).length ∨ d = .invalidRow (.nul row.id) := by
  unfold Row.encode at h
  dsimp only at h
  split at h
  · cases h
    exact .inl rfl
  · split at h
    · cases h
      exact .inr rfl
    · cases h

/-- A refused row, too. -/
theorem insertRow_refused {tree : Tree} (hs : s.Sound)
    (h : Rooted s.view tree.root tree.config.fill T) {c : Cursor} {row : Row}
    (hrun : walking.onCursor c (Walk.insertRow tree row) s = (.error e, s')) :
    (∃ d, e = .refused d ∧ (Insertion.row row).Refuses d) ∧ s.Seen s' := by
  unfold walking.onCursor Walk.insertRow at hrun
  cases henc : row.encode with
  | error d =>
    rw [henc, bind_error (ofExcept_error_apply d _)] at hrun
    cases hrun
    refine ⟨⟨d, rfl, ?_⟩, .refl s⟩
    rcases encode_eq_error henc with rfl | rfl
    · exact .inl rfl
    · exact .inr (.inl rfl)
  | ok value =>
    rw [henc, bind_ok (ofExcept_ok_apply value _)] at hrun
    have hins : tree.insert row.id value s = (.error e, s') := hrun
    obtain ⟨⟨d, rfl, hd⟩, hseen⟩ := insert_refused hs h hins
    exact ⟨⟨d, rfl, .inr (.inr hd)⟩, hseen⟩

/-- An action on the tree leaves the table with another pager. -/
theorem onTree_eq {x : Tree → Action Pager Unit} {r : Except Fault Unit}
    (h : onTree x t = (r, t')) :
    ∃ s', x t.tree t.pager = (r, s') ∧ t' = { t with pager := s' } := by
  rcases hx : x t.tree t.pager with ⟨r', s'⟩
  rw [onTree_run hx] at h
  cases h
  exact ⟨s', rfl, rfl⟩

/-- Whichever way an entry is inserted, a refusal has loaded nodes and changed nothing. -/
theorem Insertion.refused (i : Insertion) (hs : t.pager.Sound)
    (h : Rooted t.pager.view t.tree.root t.tree.config.fill T) (hrun : i.run t = (.error e, t')) :
    (∃ d, e = .refused d ∧ i.Refuses d) ∧
      ∃ s', t.pager.Seen s' ∧ t' = { t with pager := s' } := by
  cases i with
  | entry key value =>
    obtain ⟨s', hx, rfl⟩ := onTree_eq (x := (·.insert key value)) hrun
    obtain ⟨hd, hseen⟩ := insert_refused hs h hx
    exact ⟨hd, s', hseen, rfl⟩
  | row r =>
    obtain ⟨s', hx, rfl⟩ := onTree_eq (x := fun tree => do
      walking.onCursor (← Cursor.start tree) (Walk.insertRow tree r)) hrun
    obtain ⟨c, s₀, hstart, hseen₀, -⟩ := Cursor.start_run h
    obtain ⟨hd, hseen⟩ := insertRow_refused (hseen₀.sound hs).1 (hseen₀.view ▸ h)
      ((bind_ok hstart).symm.trans hx)
    exact ⟨hd, s', hseen₀.trans hseen, rfl⟩
  | rowAt c r =>
    obtain ⟨s', hx, rfl⟩ :=
      onTree_eq (x := fun tree => walking.onCursor c (Walk.insertRow tree r)) hrun
    obtain ⟨hd, hseen⟩ := insertRow_refused hs h hx
    exact ⟨hd, s', hseen, rfl⟩

/-- **A refused insert leaves the table as it was.** If an insert into a table that passes the check
fails, it is refused for its key, for want of pages, or for its row. What was cached is cached with
the same bytes and is dirty if it was, the page count and the file are the same, and no page was
cached in the meantime unless it was read from a file that someone else has written to. If nobody
else writes to the file, and it had less than `2 ^ 44` bytes when it was opened (`Undisturbed`), the
table is exactly what it was. -/
theorem insertion_refused (t t' : Table) (i : Insertion) (e : Fault) (hs : t.pager.Reachable)
    (hvalid : (validate t).1 = .ok ()) (hrun : i.run t = (.error e, t')) :
    (∃ d, e = .refused d ∧ i.Refuses d) ∧ t'.tree = t.tree ∧ t.pager.Loaded t'.pager ∧
      (t.pager.Undisturbed → t' = t) := by
  obtain ⟨T, h⟩ := Tree.validate_eq_ok_iff.mp hvalid
  obtain ⟨hd, s', hseen, rfl⟩ := i.refused hs.sound h hrun
  exact ⟨hd, rfl, hseen.loaded hs.sound, fun hu => by rw [hu.faithful.seen hseen]⟩

/-- A table that was opened from a file is undisturbed. -/
theorem ofFile_undisturbed {path : String} {bytes : Array UInt8} {config : Config}
    (fits : bytes.size < UInt32.size * pageSize) (hopen : ofFile path bytes config = .ok t) :
    t.pager.Undisturbed := by
  unfold ofFile ofFileAt at hopen
  split at hopen
  · cases hopen
  · rename_i s hs
    have hu := Tree.establish_keeps (T := ⟨rootPage, config⟩) Undisturbed.closed s (.opened fits hs)
    dsimp only at hopen
    split at hopen
    · rename_i hrun
      cases hopen
      rwa [hrun] at hu
    · cases hopen

/-- A key is inserted, and then it is refused. -/
theorem insertion_refused_twice :
    ∃ t t', ofFile defaultPath #[] .full = .ok t ∧
      (Insertion.entry 7 (Vector.replicate _ 1)).run t = (.ok (), t') ∧
      (Insertion.entry 7 (Vector.replicate _ 2)).run t' =
        (.error (.refused (.duplicateKey 7)), t') := by
  obtain ⟨t, hopen, h⟩ := ofFile_stores defaultPath .full
  have hu := ofFile_undisturbed (by decide) hopen
  obtain ⟨s', hins⟩ : ∃ s', t.tree.insert 7 (Vector.replicate _ 1) t.pager = (.ok (), s') := by
    have hr := PagedTable.insert_run t.tree.config.fill_admits h.sound h.rooted
      ⟨7, Vector.replicate _ 1⟩
    generalize t.tree.insert _ _ t.pager = r at hr
    cases hr with
    | duplicate mem => simp at mem
    | added => exact ⟨_, rfl⟩
    | full sp notMem excess =>
      -- The leaf has no cells yet, so it has room.
      have hlen := congrArg List.length sp.cells_eq
      have hroom : sp.cells.length < t.tree.config.leafMax := by
        have hmax : 2 ≤ t.tree.config.leafMax := t.tree.config.two_le_leafMax
        simp only [PageTree.cells_leaf, PageTree.Spot.before, PageTree.Spot.after,
          List.length_append, List.length_take, List.length_drop, List.length_nil] at hlen
        omega
      have := h.sound.count_le
      rw [sp.cost_of_room hroom] at excess
      omega
  have hu' : s'.Undisturbed := by
    have := Tree.insert_keeps Undisturbed.closed (T := t.tree) 7 (Vector.replicate _ 1) _ hu
    rwa [hins] at this
  have hrun : (Insertion.entry 7 (Vector.replicate _ 1)).run t = (.ok (), ⟨t.tree, s'⟩) :=
    onTree_run (x := (·.insert 7 (Vector.replicate _ 1))) hins
  obtain ⟨-, T, h'⟩ := h.insert_run 7 (Vector.replicate _ 1)
  have hop : (Op.insert 7 (Vector.replicate _ 1)).run t = (.ok (), ⟨t.tree, s'⟩) := hrun
  rw [hop] at h'
  have hvalid := (h'.validate_run).1
  obtain ⟨hagrees, -⟩ := h'.insert_run 7 (Vector.replicate _ 2)
  have hdup := hagrees.1.mpr (by simp [Op.next])
  refine ⟨t, ⟨t.tree, s'⟩, hopen, hrun, ?_⟩
  obtain ⟨-, -, -, hsame⟩ := insertion_refused ⟨t.tree, s'⟩ _
    (.entry 7 (Vector.replicate _ 2)) _ hu'.reachable hvalid (Prod.ext hdup rfl)
  exact Prod.ext hdup (hsame hu')

end Table

end PagedTable
