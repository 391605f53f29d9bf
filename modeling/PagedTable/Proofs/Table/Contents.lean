import PagedTable.Proofs.Cursor.Scan
import PagedTable.Proofs.Tree.Outline
import PagedTable.Table

/-!
# Tables as maps

To its callers a table is a map from keys to values.

* `Table.Op`: the operations. `Op.Agrees` says what each may answer on a map, and `Op.next` which
  map it leaves.
* `Table.Stores`: the cells of the table's tree are the entries of the map.
* `Table.Holds`: the same for a tree whose nodes are as full as other bounds ask.
* `Holds.insert_run`, `Holds.scan_run`, …: one operation answers as the map says, and the table
  holds the map after it.
* `ofFile_follows`: so does every run of operations on a new table.
-/

namespace PagedTable

/-- Which value is stored under which key. -/
abbrev Contents := Key → Option Payload

namespace Table

open PagedTable.Action Pager

/-- An operation on a table. -/
inductive Op where
  | insert (key : Key) (value : Payload)
  /-- The value under a key. -/
  | get (key : Key)
  /-- The row that the value under a key encodes. -/
  | getRow (key : Key)
  | search (key : Key)
  | scan
  | validate
  | dump
  | flush

namespace Op

/-- What an operation answers when it succeeds. -/
def Reply : Op → Type
  | insert _ _ => Unit
  | get _ => Option Payload
  | getRow _ => Option Row
  | search _ => Position
  | scan => List (Key × Payload)
  | validate => Unit
  | dump => String
  | flush => Unit

/-- Carries out an operation. -/
def run : (op : Op) → Action Table op.Reply
  | insert key value => Table.insert key value
  | get key => onTree (·.get key)
  | getRow key => Table.get key
  | search key => onTree (·.search key)
  | scan => Table.scan
  | validate => Table.validate
  | dump => Table.dump
  | flush => Table.flush

/-- The row that a value encodes. -/
def decoded : Option Payload → Except Fault (Option Row)
  | none => .ok none
  | some value =>
    match Row.decodePayload value with
    | .ok row => .ok (some row)
    | .error e => .error (.refused e)

/-- What an operation may answer on a map. -/
def Agrees (m : Contents) : (op : Op) → Except Fault op.Reply → Prop
  | insert key _, r =>
    (r = .error (.refused (.duplicateKey key)) ↔ (m key).isSome) ∧
      (m key = none → r = .ok () ∨ ∃ page, r = .error (.refused (.pageOutOfBounds page)))
  | get key, r => r = .ok (m key)
  | getRow key, r => r = decoded (m key)
  | search key, r => ∃ pos : Position, r = .ok pos ∧ (pos.found = true ↔ (m key).isSome)
  | scan, r => ∃ entries : List (Key × Payload), r = .ok entries ∧
      (entries.map Prod.fst).Pairwise (· < ·) ∧
      ∀ key value, (key, value) ∈ entries ↔ m key = some value
  | validate, r => r = .ok ()
  | dump, r => ∃ lines : List OutlineLine,
      r = .ok (String.join (lines.map OutlineLine.render)) ∧
      (lines.filterMap OutlineLine.leafKey?).Pairwise (· < ·) ∧
      ∀ key, key ∈ lines.filterMap OutlineLine.leafKey? ↔ (m key).isSome
  | flush, r => r = .ok ()

/-- The map after an operation that answered `r`: an insert that succeeds adds its entry. -/
def next (m : Contents) : (op : Op) → Except Fault op.Reply → Contents
  | insert key value, .ok () => Function.update m key (some value)
  | _, _ => m

end Op

/-- Run on the table one after the other, the operations answer as a map does that starts as `m`,
whatever they answer. -/
def Follows : List Op → Contents → Table → Prop
  | [], _, _ => True
  | op :: ops, m, t => op.Agrees m (op.run t).1 ∧ Follows ops (op.next m (op.run t).1) (op.run t).2

/-! ## The cells of the tree -/

/-- The tree `T` that the table holds has the entries of the map `m` as its cells. -/
structure Stores (t : Table) (m : Contents) (T : PageTree) : Prop where
  sound : t.pager.Sound
  undamaged : t.pager.disk.damaged = []
  rooted : Rooted t.pager.view t.tree.root t.tree.config.fill T
  cell_iff : ∀ key value, m key = some value ↔ ⟨key, value⟩ ∈ T.cells

/-- One operation answers as the map says, and the table stores the map that it leaves. -/
def Op.Correct (m : Contents) (t : Table) (op : Op) : Prop :=
  op.Agrees m (op.run t).1 ∧ ∃ T, Stores (op.run t).2 (op.next m (op.run t).1) T

/-- The same for a tree whose nodes are as full as `f` asks. Its configuration may ask for something
else, but inserts under it keep to `f`. -/
structure Holds (f : Fill) (t : Table) (m : Contents) (T : PageTree) : Prop where
  sound : t.pager.Sound
  undamaged : t.pager.disk.damaged = []
  admits : f.Admits t.tree.config
  rooted : Rooted t.pager.view t.tree.root f T
  cell_iff : ∀ key value, m key = some value ↔ ⟨key, value⟩ ∈ T.cells

/-- One operation answers as the map says, and the table holds the map that it leaves. -/
structure Op.Upholds (f : Fill) (m : Contents) (t : Table) (op : Op) : Prop where
  tree : (op.run t).2.tree = t.tree
  agrees : op.Agrees m (op.run t).1
  holds : ∃ T, Holds f (op.run t).2 (op.next m (op.run t).1) T

variable {f : Fill} {t : Table} {m : Contents} {T : PageTree} {s' : Pager} {α : Type}

theorem onTree_run {x : Tree → Action Pager α} {r : Except Fault α}
    (h : x t.tree t.pager = (r, s')) : onTree x t = (r, { t with pager := s' }) := by
  unfold onTree onPart
  rw [h]

theorem walking_run {x : Tree → Action Walk α} {r : Except Fault α} {c : Cursor} {w : Walk}
    (hstart : Cursor.start t.tree t.pager = (.ok c, s')) (h : x t.tree ⟨c, s'⟩ = (r, w)) :
    walking x t = (r, { t with pager := w.pager }) := by
  refine onTree_run ((bind_ok hstart).trans ?_)
  unfold walking.onCursor
  rw [h]

/-- The row under a key is what the value under it decodes to. -/
theorem get_of_value {key : Key} {r : Option Payload}
    (h : t.tree.get key t.pager = (.ok r, s')) :
    Table.get key t = (Op.decoded r, { t with pager := s' }) := by
  unfold Table.get
  refine onTree_run ?_
  rw [bind_ok h]
  cases r with
  | none => rfl
  | some value =>
    show (ofExcept (Row.decodePayload value) >>= fun row => pure (some row)) s' = _
    rw [Op.decoded]
    cases Row.decodePayload value <;> rfl

namespace Holds

theorem isSome_iff (h : t.Holds f m T) (key : Key) : (m key).isSome ↔ key ∈ T.keys := by
  rw [Option.isSome_iff_exists, PageTree.keys, List.mem_map]
  constructor
  · rintro ⟨value, hv⟩
    exact ⟨⟨key, value⟩, (h.cell_iff key value).mp hv, rfl⟩
  · rintro ⟨x, hx, rfl⟩
    exact ⟨x.value, (h.cell_iff _ _).mpr hx⟩

/-- Loading nodes changes nothing of what is held. -/
theorem seen (h : t.Holds f m T) (hseen : t.pager.Seen s') :
    Holds f { t with pager := s' } m T :=
  ⟨(hseen.sound h.sound).1, (damaged_closed []).seen hseen h.undamaged, h.admits,
    hseen.view ▸ h.rooted, h.cell_iff⟩

/-- An operation that only loads nodes is correct if its answer is. -/
theorem upholds_of_seen {op : Op} {r : Except Fault op.Reply} (h : t.Holds f m T)
    (hseen : t.pager.Seen s') (hrun : op.run t = (r, { t with pager := s' }))
    (hagrees : op.Agrees m r) (hnext : op.next m r = m) : op.Upholds f m t := by
  constructor
  all_goals rw [hrun]
  · exact hagrees
  · exact ⟨T, hnext.symm ▸ h.seen hseen⟩

/-! ## One operation -/

/-- The map of a tree that a new cell was put into. -/
theorem cell_iff_grown (h : t.Holds f m T) {x : Cell} (sp : T.Spot x.key) (hx : x.key ∉ T.keys)
    (cfg : Config) (fresh : Nat) (key : Key) (value : Payload) :
    Function.update m x.key (some x.value) key = some value ↔
      ⟨key, value⟩ ∈ (sp.grown cfg fresh x).cells := by
  rw [sp.mem_cells_grown]
  by_cases hkey : key = x.key
  · subst hkey
    have hnot : ⟨x.key, value⟩ ∉ T.cells := fun hmem =>
      hx (List.mem_map.mpr ⟨_, hmem, rfl⟩)
    rw [Function.update_self, Option.some.injEq, or_iff_left hnot]
    exact ⟨fun hv => hv ▸ rfl, fun hv => (congrArg Cell.value hv).symm⟩
  · rw [Function.update_of_ne hkey, h.cell_iff, or_iff_right fun hv => hkey (congrArg Cell.key hv)]

theorem insert_run (h : t.Holds f m T) (key : Key) (value : Payload) :
    (Op.insert key value).Upholds f m t := by
  have hr := PagedTable.insert_run h.admits h.sound h.rooted ⟨key, value⟩
  have hdamaged := Tree.insert_keeps (T := t.tree) (damaged_closed []) key value _ h.undamaged
  generalize hrun : t.tree.insert key value t.pager = r at hr hdamaged
  have hop : (Op.insert key value).run t = (r.1, { t with pager := r.2 }) :=
    onTree_run (x := (·.insert key value)) hrun
  have hsome := h.isSome_iff key
  cases hr with
  | duplicate mem seen =>
    refine h.upholds_of_seen seen hop ⟨iff_of_true rfl (hsome.mpr mem), fun hnone => ?_⟩ rfl
    rw [hnone] at hsome
    exact absurd (hsome.mpr mem) (by decide)
  | full sp notMem excess seen =>
    refine h.upholds_of_seen seen hop ⟨iff_of_false (fun heq => ?_) (hsome.not.mpr notMem),
      fun _ => .inr ⟨_, rfl⟩⟩ rfl
    cases heq
  | added sp notMem room sound count rooted _ =>
    constructor
    all_goals rw [hop]
    · refine ⟨iff_of_false (fun heq => ?_) (hsome.not.mpr notMem), fun _ => .inl rfl⟩
      cases heq
    · exact ⟨sp.grown t.tree.config t.pager.count ⟨key, value⟩, sound, hdamaged, h.admits, rooted,
        h.cell_iff_grown sp notMem _ _⟩

theorem get_eq (h : t.Holds f m T) {key : Key} {r : Option Payload}
    (hr : ∀ value, r = some value ↔ ⟨key, value⟩ ∈ T.cells) : r = m key :=
  Option.ext fun value => (hr value).trans (h.cell_iff key value).symm

theorem get_run (h : t.Holds f m T) (key : Key) : (Op.get key).Upholds f m t := by
  obtain ⟨r, s', hseen, hrun, hr⟩ := Tree.get_run h.rooted key
  exact h.upholds_of_seen hseen (onTree_run (x := (·.get key)) hrun)
    (congrArg Except.ok (h.get_eq hr)) rfl

theorem getRow_run (h : t.Holds f m T) (key : Key) : (Op.getRow key).Upholds f m t := by
  obtain ⟨r, s', hseen, hrun, hr⟩ := Tree.get_run h.rooted key
  exact h.upholds_of_seen hseen (get_of_value (h.get_eq hr ▸ hrun)) rfl rfl

theorem search_run (h : t.Holds f m T) (key : Key) : (Op.search key).Upholds f m t := by
  obtain ⟨sp, found, s', hfound, hseen, hrun⟩ := Tree.search_run h.rooted key
  exact h.upholds_of_seen hseen (onTree_run (x := (·.search key)) hrun)
    ⟨⟨sp.leaf, sp.index, found⟩, rfl, hfound.trans (h.isSome_iff key).symm⟩ rfl

theorem scan_run (h : t.Holds f m T) : Op.scan.Upholds f m t := by
  obtain ⟨c, s₀, hstart, hseen₀, hat⟩ := Cursor.start_run h.rooted
  have h₀ := (h.seen hseen₀).rooted
  obtain ⟨w, hrun, hseen⟩ := Walk.entriesFrom_run (w := ⟨c, s₀⟩) h₀ hat h₀.length_cells_lt
  refine h.upholds_of_seen (hseen₀.trans hseen)
    (walking_run (x := fun _ => Walk.entriesFrom scanLength) hstart hrun)
    ⟨_, rfl, ?_, fun key value => ?_⟩ rfl
  · rw [List.map_map]
    exact h.rooted.ordered
  · rw [h.cell_iff, List.mem_map]
    constructor
    · rintro ⟨x, hx, heq⟩
      cases heq
      exact hx
    · exact fun hx => ⟨_, hx, rfl⟩

/-- A check may find nodes that are not as full as the configuration asks, but nothing else. -/
theorem validate_cases (h : t.Holds f m T) :
    ∃ r s', t.pager.Seen s' ∧ validate t = (r, { t with pager := s' }) ∧
      (r = .ok () ∨ ∃ e, Tree.Misfilled e ∧ r = .error e) := by
  obtain ⟨r, s', hseen, hrun, hr⟩ := Tree.validate_cases h.rooted
  exact ⟨r, s', hseen, onTree_run (x := Tree.validate) hrun, hr.imp_right And.right⟩

theorem dump_run (h : t.Holds f m T) : Op.dump.Upholds f m t := by
  obtain ⟨s', hseen, hrun⟩ := Tree.dump_run h.rooted
  refine h.upholds_of_seen hseen (onTree_run (x := Tree.dump) hrun)
    ⟨T.outline 0, rfl, ?_, fun key => ?_⟩ rfl
  · rw [PageTree.filterMap_leafKey?_outline]
    exact h.rooted.ordered
  · rw [PageTree.filterMap_leafKey?_outline, h.isSome_iff]

theorem flush_run (h : t.Holds f m T) : Op.flush.Upholds f m t := by
  obtain ⟨hkept, hok⟩ := flush_kept h.sound
  have hrun : Op.flush.run t = (.ok (), { t with pager := (Pager.flush t.pager).2 }) :=
    onTree_run (x := fun _ => Pager.flush) (Prod.ext (hok h.undamaged) rfl)
  constructor
  all_goals rw [hrun]
  · exact rfl
  · exact ⟨T, hkept.sound h.sound, hkept.damaged.trans h.undamaged, h.admits,
      h.rooted.mono fun _ _ _ => hkept.node?, h.cell_iff⟩

/-- **One operation** apart from a check. -/
theorem upholds (h : t.Holds f m T) {op : Op} (hop : op ≠ .validate) : op.Upholds f m t := by
  cases op with
  | insert key value => exact h.insert_run key value
  | get key => exact h.get_run key
  | getRow key => exact h.getRow_run key
  | search key => exact h.search_run key
  | scan => exact h.scan_run
  | validate => exact absurd rfl hop
  | dump => exact h.dump_run
  | flush => exact h.flush_run

end Holds

namespace Stores

theorem holds (h : t.Stores m T) : t.Holds t.tree.config.fill m T :=
  ⟨h.sound, h.undamaged, t.tree.config.fill_admits, h.rooted, h.cell_iff⟩

theorem of_holds (h : t.Holds t.tree.config.fill m T) : t.Stores m T :=
  ⟨h.sound, h.undamaged, h.rooted, h.cell_iff⟩

theorem correct_of_upholds {op : Op} (h : op.Upholds t.tree.config.fill m t) :
    op.Correct m t := by
  obtain ⟨htree, hagrees, T, hT⟩ := h
  exact ⟨hagrees, T, of_holds (htree.symm ▸ hT)⟩

theorem insert_run (h : t.Stores m T) (key : Key) (value : Payload) :
    (Op.insert key value).Correct m t :=
  correct_of_upholds (h.holds.insert_run key value)

theorem validate_run (h : t.Stores m T) : Op.validate.Correct m t := by
  obtain ⟨s', hseen, hrun⟩ := Tree.validate_run h.rooted
  have hop : Op.validate.run t = (.ok (), { t with pager := s' }) := onTree_run hrun
  exact correct_of_upholds (h.holds.upholds_of_seen hseen hop rfl rfl)

/-! ## Runs -/

/-- **One operation.** -/
theorem correct (h : t.Stores m T) (op : Op) : op.Correct m t := by
  by_cases hop : op = .validate
  · exact hop ▸ h.validate_run
  · exact correct_of_upholds (h.holds.upholds hop)

/-- **A run of operations.** -/
theorem follows (h : t.Stores m T) (ops : List Op) : Follows ops m t := by
  induction ops generalizing t m T with
  | nil => trivial
  | cons op ops ih =>
    obtain ⟨hagrees, T', h'⟩ := h.correct op
    exact ⟨hagrees, ih h'⟩

end Stores

/-- A new table stores the empty map. -/
theorem ofFile_stores (path : String) (config : Config) :
    ∃ t, ofFile path #[] config = .ok t ∧ t.Stores (fun _ => none) (.leaf rootPage []) := by
  have hnew : (Pager.holding { path, bytes := #[], pages := 0 } 0 #[]).Sound :=
    .holding _ (Nat.le_refl 0) (Nat.zero_le _)
  have hopen : Pager.ofFile path #[] =
      .ok (Pager.holding { path, bytes := #[], pages := 0 } 0 #[]) := rfl
  let tree : Tree := { root := rootPage, config }
  obtain ⟨s', hrun, hs', hrooted⟩ :=
    tree.establish_run hnew (Nat.zero_le _) (show rootPage.index < maxPages by decide) config.fill
  have hdamaged := Tree.establish_keeps (T := tree) (damaged_closed [])
    (Pager.holding { path, bytes := #[], pages := 0 } 0 #[]) rfl
  rw [hrun] at hdamaged
  refine ⟨⟨tree, s'⟩, ?_, hs', hdamaged, hrooted, fun key value => ?_⟩
  · unfold ofFile ofFileAt
    rw [hopen]
    dsimp only
    rw [hrun]
  · simp

/-- **A new table is a map** that starts empty: every run of operations on it answers as the map
does. An insert of a key that is there is refused and changes nothing, another one adds its entry or
finds the table full, and no operation fails in another way. -/
theorem ofFile_follows (path : String) (config : Config) (ops : List Op) :
    ∃ t, ofFile path #[] config = .ok t ∧ Follows ops (fun _ => none) t := by
  obtain ⟨t, hopen, h⟩ := ofFile_stores path config
  exact ⟨t, hopen, h.follows ops⟩

end Table

end PagedTable
