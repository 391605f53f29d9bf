import PagedTable.Proofs.Cursor.Rows
import PagedTable.Proofs.Table.Queries
import PagedTable.Proofs.Table.Stands

/-!
# Lookups and scans agree

What a table stores can be asked for in three ways: a lookup descends by separators, a scan goes
from leaf to leaf through parents, and reading all rows goes through the iterator, which meets
payloads that are no rows. On a table that passes the check they tell the same, whatever the
payloads are, and go on to do so after any queries.

* `Table.Selected`: what all rows are answered as, told by the entries.
* `Table.Lookups`: the three ways agree. `Rooted.lookups`: over a whole tree they do.
* `Query.shows`, `asked_shows`: queries, answered or not, change nothing of what the pages show.
* `lookups_agree`: on a table that passes the check.
-/

namespace PagedTable

open PagedTable.Action Pager

/-- What a cell is scanned as. -/
def Cell.entry (x : Cell) : Key × Payload := (x.key, x.value)

namespace Table

variable {t : Table} {f : Fill} {T : PageTree}

/-! ## One table -/

/-- What all rows are answered as, by the entries of the table. -/
inductive Selected : List (Key × Payload) → Except Fault (List Row) → Prop where
  /-- Every payload encodes a row. -/
  | all {entries : List (Key × Payload)} {rows : List Row}
    (decoded : entries.map (fun x => Row.decodePayload x.2) = rows.map .ok) :
    Selected entries (.ok rows)
  /-- The payload of this key is the first that encodes none. -/
  | first {before after : List (Key × Payload)} {rows : List Row} {key : Key} {payload : Payload}
    {e : DbError} (decoded : before.map (fun x => Row.decodePayload x.2) = rows.map .ok)
    (flaw : Row.decodePayload payload = .error e) :
    Selected (before ++ (key, payload) :: after) (.error (.refused e))

/-- The ways to ask the table for what it stores agree. -/
structure Lookups (entries : List (Key × Payload)) (t : Table) : Prop where
  scan : (Table.scan t).1 = .ok entries
  get_of_mem : ∀ key payload, (key, payload) ∈ entries →
    (Table.get key t).1 = Op.decoded (some payload)
  get_of_notMem : ∀ key, key ∉ entries.map Prod.fst → (Table.get key t).1 = .ok none
  select : Selected entries (Table.select t).1

/-- The answer of `select`, from the leading rows. -/
def selection : List Row × Option DbError → Except Fault (List Row)
  | (rows, none) => .ok rows
  | (_, some e) => .error (.refused e)

theorem selected (entries : List (Key × Payload)) :
    Selected entries (selection (Row.leading (entries.map fun x => Row.decodePayload x.2))) := by
  rcases Row.rows_or_flaw (entries.map fun x => Row.decodePayload x.2) with
    ⟨rows, h⟩ | ⟨rows, e, rest, h⟩
  · rw [h, Row.leading_ok]
    exact .all h
  · rw [h, Row.leading_error]
    obtain ⟨before, tail, rfl, hbefore, htail⟩ := List.map_eq_append_iff.mp h
    obtain ⟨⟨key, payload⟩, after, rfl, hflaw, -⟩ := List.map_eq_cons_iff.mp htail
    exact .first hbefore hflaw

theorem select_of_leadingRows {r : List Row × Option DbError} {t' : Table}
    (h : leadingRows t = (.ok r, t')) : (Table.select t).1 = selection r := by
  unfold Table.select
  rw [bind_ok h]
  obtain ⟨rows, _ | e⟩ := r <;> rfl

theorem scan_rooted (h : Rooted t.pager.view t.tree.root f T) :
    (Table.scan t).1 = .ok (T.cells.map Cell.entry) := by
  obtain ⟨c, s, hstart, hseen, hat⟩ := Cursor.start_run h
  rw [← hseen.view] at h
  obtain ⟨w, hrun, -⟩ := Walk.entriesFrom_run (w := ⟨c, s⟩) h hat h.length_cells_lt
  have hscan := walking_run (x := fun _ => Walk.entriesFrom scanLength) hstart hrun
  exact congrArg Prod.fst hscan

theorem select_rooted (h : Rooted t.pager.view t.tree.root f T) :
    Selected (T.cells.map Cell.entry) (Table.select t).1 := by
  obtain ⟨c, s, hstart, hseen, hat⟩ := Cursor.start_run h
  rw [← hseen.view] at h
  obtain ⟨w, hrun, -⟩ := Walk.rowsFrom_run (w := ⟨c, s⟩) h hat h.length_cells_lt
  have hrows := walking_run (x := fun _ => Walk.rowsFrom scanLength) hstart hrun
  have hselected := selected (T.cells.map Cell.entry)
  rw [List.map_map] at hselected
  rw [select_of_leadingRows hrows]
  exact hselected

theorem get_rooted (h : Rooted t.pager.view t.tree.root f T) (key : Key) :
    ∃ r, (Table.get key t).1 = Op.decoded r ∧ ∀ value, r = some value ↔ ⟨key, value⟩ ∈ T.cells := by
  obtain ⟨r, s, -, hrun, hr⟩ := Tree.get_run h key
  exact ⟨r, congrArg Prod.fst (get_of_value hrun), hr⟩

/-- **A whole tree** is looked up and scanned alike. -/
theorem lookups_of_rooted (h : Rooted t.pager.view t.tree.root f T) :
    Lookups (T.cells.map Cell.entry) t := by
  refine ⟨scan_rooted h, fun key payload hmem => ?_, fun key hkey => ?_, select_rooted h⟩
  · obtain ⟨x, hcell, heq⟩ := List.mem_map.mp hmem
    cases heq
    obtain ⟨r, hrun, hr⟩ := get_rooted h x.key
    rw [hrun, (hr x.value).mpr hcell]
  · obtain ⟨r, hrun, hr⟩ := get_rooted h key
    cases r with
    | none => rw [hrun, Op.decoded]
    | some value =>
      have hcell := (hr value).mp rfl
      exact absurd (List.mem_map_of_mem (List.mem_map_of_mem hcell)) hkey

/-! ## Queries in between -/

/-- The table that is left by some queries, one after the other, whatever they answer. -/
def asked (t : Table) (queries : List Query) : Table := queries.foldl (fun t q => (q.run t).2) t

/-- **One query** leaves the tree, and all that the pages show. -/
theorem Query.shows (q : Query) (t : Table) :
    (q.run t).2.tree = t.tree ∧ (q.run t).2.pager.view = t.pager.view := by
  have h := (q.peeks t.pager t.tree).run t ⟨rfl, .refl t.pager⟩
  rcases hrun : q.run t with ⟨_ | _, t'⟩ <;> rw [hrun] at h
  · exact ⟨h.1, h.2.view⟩
  · exact ⟨h.1, h.2.view⟩

/-- **Any number of queries.** -/
theorem asked_shows (queries : List Query) (t : Table) :
    (t.asked queries).tree = t.tree ∧ (t.asked queries).pager.view = t.pager.view := by
  induction queries generalizing t with
  | nil => exact ⟨rfl, rfl⟩
  | cons q queries ih =>
    obtain ⟨htree, hview⟩ := q.shows t
    obtain ⟨htree', hview'⟩ := ih (q.run t).2
    exact ⟨htree'.trans htree, hview'.trans hview⟩

/-- **A table passes the check** if its pages hold a whole tree, and only then. -/
theorem validate_eq_ok_iff_rooted :
    (validate t).1 = .ok () ↔ ∃ T, Rooted t.pager.view t.tree.root t.tree.config.fill T := by
  rw [← Tree.validate_eq_ok_iff]
  unfold validate onTree onPart
  rcases t.tree.validate t.pager with ⟨r, s⟩
  rfl

/-- **Lookups and scans agree** on a table that passes the check, whatever payloads it stores. Its
entries have different keys, in ascending order. A scan answers them. A lookup of the key of an
entry answers what its payload decodes to, and of any other key that there is no row. All rows are
answered, in the order of keys, if every payload encodes one; otherwise the error of the first
payload that encodes none. All this still holds after any queries. -/
theorem lookups_agree (t : Table) (h : (validate t).1 = .ok ()) :
    ∃ entries : List (Key × Payload), (entries.map Prod.fst).Pairwise (· < ·) ∧
      ∀ queries, Lookups entries (t.asked queries) := by
  obtain ⟨T, hT⟩ := validate_eq_ok_iff_rooted.mp h
  refine ⟨T.cells.map Cell.entry, ?_, fun queries => ?_⟩
  · rw [List.map_map]
    exact hT.ordered
  · obtain ⟨htree, hview⟩ := asked_shows queries t
    refine lookups_of_rooted (f := t.tree.config.fill) ?_
    rw [htree, hview]
    exact hT

/-- A new table after an insert of a payload that is no text. -/
theorem lookups_agree_one :
    ∃ t₀, ofFile defaultPath #[] .full = .ok t₀ ∧
      let t := (Table.insert 7 (Vector.replicate _ 255) t₀).2
      (validate t).1 = .ok () ∧
        ∃ entries, (7, Vector.replicate _ 255) ∈ entries ∧ Lookups entries t := by
  obtain ⟨⟨tree, pager⟩, hopen, htree, -, hstands⟩ := ofFile_stands defaultPath .full
  obtain rfl : tree = _ := htree
  refine ⟨_, hopen, ?_⟩
  have hinsert := hstands.insert_run ⟨7, Vector.replicate _ 255⟩
  generalize Table.insert 7 _ _ = r at hinsert ⊢
  cases hinsert with
  | duplicate mem =>
    rw [PageTree.keys_leaf] at mem
    cases mem
  | full page notMem crowded =>
    rw [PageTree.cells_leaf] at crowded
    exact absurd crowded (show ¬ Config.full.leafMax ≤ 0 by decide)
  | @added s growth =>
    have hvalid : (validate ⟨⟨rootPage, .full⟩, s⟩).1 = .ok () :=
      validate_eq_ok_iff_rooted.mpr ⟨_, growth.rooted⟩
    obtain ⟨entries, -, hlookups⟩ := lookups_agree _ hvalid
    refine ⟨hvalid, entries, ?_, hlookups []⟩
    have hscan := (lookups_of_rooted (t := ⟨⟨rootPage, .full⟩, s⟩) growth.rooted).scan
    rw [← Except.ok.inj (hscan.symm.trans (hlookups []).scan)]
    exact List.mem_map_of_mem ((growth.spot.mem_cells_grown).mpr (.inl rfl))

end Table

end PagedTable
