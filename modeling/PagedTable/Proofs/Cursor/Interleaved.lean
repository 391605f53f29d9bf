import PagedTable.Proofs.Cursor.Scan
import PagedTable.Proofs.Table.Capacity

/-!
# Cursors while inserts go on

A cursor is told nothing about inserts. It keeps its page and its cell number, whatever they do to
the page.

* `Cursor.Lies`: what stays true of the cursor. It is behind the last row; or on a leaf, where all
  cells up to the cursor's were inserted, counted or not; or on the root's page, which is an
  internal node.
* `Lies.value_run`, `Lies.advance_run`: what the cursor does from there. On the root's page it reads
  an internal node as if it were a leaf.
* `Lies.inserted`: an insert keeps it there. Cells of a leaf move up or stay as stale ones, and
  other leaves keep their cells.
* `Scene.turn`: inserts and a cursor take turns. `Scene.Kept.turn` is one turn, `Scene.Kept.turns` a
  run of them.
* `cursor_reads_inserted`: all runs on a new table. `cursor_overruns_root` is one with the root
  split under the cursor, which goes on until it reads behind the end of the page.
-/

namespace PagedTable

open PagedTable.Action Pager Crumb
open PageTree (plug)

variable {m : View} {s s' : Pager} {root : PageId} {f : Fill} {t : PageTree} {S : List Cell}
  {c : Cursor} {x : Cell} {rest : List Cell}

/-- Where a cursor may be in the tree `t` when the cells `S` have been inserted. -/
inductive Cursor.Lies (m : View) (t : PageTree) (S : List Cell) (c : Cursor) : Prop where
  | behind (atEnd : c.atEnd = true)
  /-- The cursor's cell need not be counted any more, since its leaf may have been split. -/
  | leaf {p : Page} (mem : c.page ∈ t.pages) (node : m.node? c.page = some (.leaf, p))
    (lt : c.cell < leafCapacity) (cells : ∀ i ≤ c.cell, p.cell i ∈ S)
  /-- The root was split when the cursor was on it. -/
  | root {p : Page} (page : c.page = t.id) (node : m.node? c.page = some (.internal, p))

/-- A cursor on a whole tree. -/
theorem Cursor.At.lies (hat : c.At t rest) (h : Rooted m root f t) (hS : t.cells ⊆ S) :
    c.Lies m t S := by
  cases hat with
  | behind => exact .behind rfl
  | @on cs leaf cells i hplug hlt =>
    obtain ⟨p, hn, -, rfl, hcount⟩ := Held.leaf_of_plug (hplug ▸ h.held)
    have hcap : p.count ≤ leafCapacity := View.count_le hn
    have hmem := PageTree.mem_nodes_plug cs (.leaf leaf p.cells)
    have hcells := PageTree.cells_subset_plug cs (.leaf leaf p.cells)
    rw [PageTree.cells_leaf] at hcells
    rw [hplug] at hmem hcells
    refine .leaf (List.mem_map_of_mem hmem) hn (by show i < leafCapacity; omega) fun j hj => ?_
    exact hS (hcells (Page.cell_mem_cells (Nat.lt_of_le_of_lt hj (hcount ▸ hlt))))

namespace Cursor.Lies

/-- The page of a cursor that is not at the end is a node. -/
theorem exists_node (h : c.Lies m t S) (hend : c.atEnd = false) :
    ∃ kind p, m.node? c.page = some (kind, p) := by
  cases h with
  | behind hbehind => rw [hbehind] at hend; cases hend
  | leaf _ hn => exact ⟨_, _, hn⟩
  | root _ hn => exact ⟨_, _, hn⟩

/-- **Reading.** On a leaf the cursor reads a cell that was inserted. On the root it reads the bytes
of the internal node as if they were a cell, and panics where the page ends before. -/
theorem value_run (h : c.Lies s.view t S) (hend : c.atEnd = false) :
    (∃ x ∈ S, (Walk.value ⟨c, s⟩).1 = .ok (x.key, x.value)) ∨
      c.page = t.id ∧ ∃ p, (Pager.node c.page s).1 = .ok (.internal, p) ∧
        (Walk.value ⟨c, s⟩).1 =
          if c.cell < leafCapacity then .ok (p.cellKey c.cell, p.cellValue c.cell)
          else .error .misused := by
  cases h with
  | behind hbehind => rw [hbehind] at hend; cases hend
  | @leaf p _ hn hlt hcells =>
    refine .inl ⟨p.cell c.cell, hcells _ (Nat.le_refl _), ?_⟩
    rw [Walk.value_node (w := ⟨c, s⟩) hn hend]
    dsimp only
    rw [Page.cell?_eq p hlt]
  | @root p hpage hn =>
    refine .inr ⟨hpage, p, congrArg Prod.fst (Pager.node_run hn), ?_⟩
    rw [Walk.value_node (w := ⟨c, s⟩) hn hend]
    dsimp only
    split_ifs with hlt
    · rw [Page.cell?_eq p hlt]
      rfl
    · rw [Page.cell?_eq_none p (Nat.le_of_not_lt hlt)]

/-- Whatever it comes to, reading changes nothing. -/
theorem value_seen (h : c.Lies s.view t S) :
    ∃ s', s.Seen s' ∧ (Walk.value ⟨c, s⟩).2 = ⟨c, s'⟩ := by
  by_cases hend : c.atEnd = false
  · obtain ⟨kind, p, hn⟩ := h.exists_node hend
    exact ⟨s.fetched c.page, .node hn, by rw [Walk.value_node (w := ⟨c, s⟩) hn hend]⟩
  · have hrequire : require (c.atEnd = false) (⟨c, s⟩ : Walk) = (.error .misused, ⟨c, s⟩) := by
      simp [require, hend]
    exact ⟨s, .refl s, by rw [Walk.value, bind_ok (state_apply _), bind_error hrequire]⟩

/-- **Moving on** always succeeds. -/
theorem advance_run (h : c.Lies s.view t S) (ht : Rooted s.view root f t) (hS : t.cells ⊆ S) :
    ∃ w, Walk.advance ⟨c, s⟩ = (.ok (), w) ∧ s.Seen w.pager ∧ w.cursor.Lies s.view t S := by
  cases hend : c.atEnd with
  | true => exact ⟨_, Walk.advance_of_atEnd (w := ⟨c, s⟩) hend, .refl s, .behind hend⟩
  | false =>
  cases h with
  | behind hbehind => rw [hbehind] at hend; cases hend
  | @leaf p hmem hn hlt hcells =>
    obtain ⟨cs, hplug⟩ := ht.held.exists_plug_leaf hmem hn
    rw [Walk.advance_node (w := ⟨c, s⟩) hn hend]
    dsimp only
    by_cases hnext : c.cell + 1 < p.count
    · rw [if_pos hnext, Walk.move_run]
      have hcap : p.count ≤ leafCapacity := View.count_le hn
      refine ⟨_, rfl, .node hn, .leaf hmem hn (by show c.cell + 1 < _; omega) fun i hi => ?_⟩
      rcases Nat.le_succ_iff.mp hi with hi | rfl
      · exact hcells i hi
      · have hleaf := PageTree.cells_subset_plug cs (.leaf c.page p.cells)
        rw [hplug, PageTree.cells_leaf] at hleaf
        exact hS (hleaf (Page.cell_mem_cells hnext))
    · rw [if_neg hnext]
      obtain ⟨w, hrun, hseen, hat⟩ := Walk.climb_run
        (w := ⟨c, s.fetched c.page⟩) (by rw [view_fetched]; exact ht) hplug
        (ht.held.unfolds.length_crumbs_lt hplug)
      exact ⟨w, hrun, (Seen.node hn).trans hseen, hat.lies ht hS⟩
  | @root p hpage hn =>
    rw [Walk.advance_node (w := ⟨c, s⟩) hn hend]
    dsimp only
    by_cases hnext : c.cell + 1 < p.count
    · rw [if_pos hnext, Walk.move_run]
      exact ⟨_, rfl, .node hn, .root hpage hn⟩
    · rw [if_neg hnext]
      have hfuel : ([] : List Crumb).length < walkLength := by decide
      obtain ⟨w, hrun, hseen, hat⟩ := Walk.climb_run (w := ⟨c, s.fetched c.page⟩)
        (by rw [view_fetched]; exact ht) PageTree.plug_nil hfuel
      rw [← hpage] at hrun
      exact ⟨w, hrun, (Seen.node hn).trans hseen, hat.lies ht hS⟩

/-! ## Inserts -/

/-- A leaf as it stands when the new cell has been written and no parent yet. -/
theorem written {cfg : Config} {p : Page} {sp : t.Spot x.key} {p₀ q : Page} {d : Bool}
    (hn : m.node? c.page = some (.leaf, p)) (hlt : c.cell < leafCapacity)
    (hcells : ∀ i ≤ c.cell, p.cell i ∈ S) (hS : t.cells ⊆ S) (hv : m sp.leaf = some ⟨p₀, d⟩)
    (hq : sp.written? cfg x p₀ = some q) :
    ∃ p', View.node? (Function.update m sp.leaf (some { page := q, dirty := true })) c.page =
        some (.leaf, p') ∧ ∀ i ≤ c.cell, p'.cell i ∈ x :: S := by
  by_cases hleaf : c.page = sp.leaf
  · obtain ⟨htag, hcount, hslots⟩ := PageTree.Spot.written?_eq_some hq
    obtain ⟨⟨d', hv'⟩, hptag, -⟩ := View.node?_eq_some_iff.mp hn
    rw [hleaf, hv] at hv'
    cases hv'
    refine ⟨q, View.node?_eq_some_iff.mpr ⟨⟨true, ?_⟩, htag.trans hptag, hcount⟩, fun i hi => ?_⟩
    · rw [hleaf, Function.update_self]
    · rcases hslots i (Nat.lt_of_le_of_lt hi hlt) with heq | hmem | ⟨k, hk, heq⟩
      · rw [heq]
        exact List.mem_cons_self
      · exact List.mem_cons_of_mem _ (hS hmem)
      · rw [heq]
        exact List.mem_cons_of_mem _ (hcells k (Nat.le_trans hk hi))
  · refine ⟨p, ?_, fun i hi => List.mem_cons_of_mem _ (hcells i hi)⟩
    rw [View.node?_congr (Function.update_of_ne hleaf _ _), hn]

/-- **An insert** leaves the cursor on a leaf or on the root. -/
theorem inserted {T : Tree} (h : c.Lies s.view t S) (hs : s.Sound)
    (ht : Rooted s.view T.root f t) (hS : t.cells ⊆ S) (sp : t.Spot x.key)
    (hfootprint : sp.Footprint T.config x s.view s.count s')
    (ht' : Rooted s'.view T.root f (sp.grown T.config s.count x)) :
    c.Lies s'.view (sp.grown T.config s.count x) (x :: S) := by
  have hpages : (sp.grown T.config s.count x).pages.Perm
      (t.pages ++ (List.range' s.count (sp.cost T.config)).map PageId.ofIndex) := sp.pages_grown
  have hlen := hpages.length_eq
  rw [List.length_append, List.length_map, List.length_range'] at hlen
  -- A tree of two pages or more has an internal node as its root.
  have hroot : c.page = t.id → 2 ≤ (sp.grown T.config s.count x).pages.length →
      c.Lies s'.view (sp.grown T.config s.count x) (x :: S) := fun hpage hle => by
    obtain ⟨p, hn⟩ := ht'.root_internal_iff.mpr hle
    exact .root (hpage.trans sp.id_grown.symm) (by rw [hpage, ht.id_eq, hn])
  cases h with
  | behind hend => exact .behind hend
  | @root p hpage hn =>
    rw [hpage, ht.id_eq] at hn
    have := ht.root_internal_iff.mp ⟨p, hn⟩
    exact hroot hpage (by omega)
  | @leaf p hmem hn hlt hcells =>
    obtain ⟨p₀, d, q, hv, hq, hspared⟩ := hfootprint
    obtain ⟨p₁, hn₁, hcells₁⟩ := written hn hlt hcells hS hv hq
    by_cases habove : c.page ∈ sp.above T.config
    · unfold PageTree.Spot.above at habove
      split at habove
      · cases habove
      rename_i hfull
      rcases List.mem_cons.mp habove with hpage | hcrumb
      · have hcost := sp.cost_of_full (Nat.le_of_not_lt hfull)
        have hpos := List.length_pos_of_mem hmem
        exact hroot hpage (by omega)
      · obtain ⟨d, hd, hid⟩ := List.mem_map.mp hcrumb
        obtain ⟨p', hn'⟩ := (sp.opened ht).1.node_of_mem_crumbs hd
        rw [hid, hn] at hn'
        cases hn'
    · obtain ⟨p', hn', hsame⟩ := hspared.node (hs.index_lt_count hn) habove hn₁
      refine .leaf (hpages.mem_iff.mpr (List.mem_append_left _ hmem)) hn' hlt fun i hi => ?_
      rw [hsame.sameBody.cell]
      exact hcells₁ i hi

end Cursor.Lies

/-! ## Turns -/

/-- What is done by turns with a table and a cursor. -/
inductive Turn where
  | insert (x : Cell)
  /-- A cursor starts on the first row, in the place of the one there was. -/
  | start
  | advance
  | value

/-- A table with a cursor. -/
structure Scene where
  pager : Pager
  cursor : Option Cursor := none
  /-- The cells whose inserts succeeded, the last one first. -/
  inserted : List Cell := []

namespace Scene

/-- The cursor, if there is one, takes a step. -/
def walk {α : Type} (x : Action Walk α) (r : Scene) : Scene :=
  match r.cursor with
  | none => r
  | some cursor =>
    let w := (x { cursor, pager := r.pager }).2
    { r with pager := w.pager, cursor := some w.cursor }

/-- One turn. What is refused is passed over. -/
def turn (T : Tree) (r : Scene) : Turn → Scene
  | .insert x =>
    match T.insert x.key x.value r.pager with
    | (.ok (), pager) => { r with pager, inserted := x :: r.inserted }
    | (.error _, pager) => { r with pager }
  | .start =>
    match Cursor.start T r.pager with
    | (.ok c, pager) => { r with pager, cursor := some c }
    | (.error _, pager) => { r with pager, cursor := none }
  | .advance => r.walk Walk.advance
  | .value => r.walk Walk.value

/-- What holds between two turns. -/
structure Kept (T : Tree) (t : PageTree) (r : Scene) : Prop where
  sound : r.pager.Sound
  rooted : Rooted r.pager.view T.root T.config.fill t
  cells : t.cells ⊆ r.inserted
  lies : ∀ {c}, r.cursor = some c → c.Lies r.pager.view t r.inserted

namespace Kept

variable {T : Tree} {r : Scene}

/-- The cursor may move, and nodes may be loaded. -/
theorem seen {cursor : Option Cursor} (h : r.Kept T t) (hseen : r.pager.Seen s')
    (hc : ∀ {c}, cursor = some c → c.Lies r.pager.view t r.inserted) :
    Kept T t { r with pager := s', cursor } :=
  ⟨(hseen.sound h.sound).1, hseen.view ▸ h.rooted, h.cells, fun heq => hseen.view ▸ hc heq⟩

theorem walk {α : Type} {a : Action Walk α} (h : r.Kept T t)
    (ha : ∀ {c}, r.cursor = some c → ∃ w, (a ⟨c, r.pager⟩).2 = w ∧ r.pager.Seen w.pager ∧
      w.cursor.Lies r.pager.view t r.inserted) : (r.walk a).Kept T t := by
  unfold Scene.walk
  split
  · exact h
  · rename_i c hc
    obtain ⟨w, hrun, hseen, hlies⟩ := ha hc
    rw [hrun]
    exact h.seen hseen fun heq => Option.some.inj heq ▸ hlies

/-- **One turn.** -/
theorem turn (h : r.Kept T t) (a : Turn) : ∃ t', (r.turn T a).Kept T t' := by
  cases a with
  | insert x =>
    have hr := insert_run T.config.fill_admits h.sound h.rooted x
    simp only [Scene.turn]
    generalize T.insert x.key x.value r.pager = result at hr ⊢
    cases hr with
    | duplicate _ seen => exact ⟨t, h.seen seen h.lies⟩
    | full _ _ _ seen => exact ⟨t, h.seen seen h.lies⟩
    | added sp _ _ sound _ rooted footprint =>
      refine ⟨_, sound, rooted, ?_, fun hc =>
        (h.lies hc).inserted h.sound h.rooted h.cells sp footprint rooted⟩
      intro y hy
      rcases sp.mem_cells_grown.mp hy with rfl | hy
      · exact List.mem_cons_self
      · exact List.mem_cons_of_mem _ (h.cells hy)
  | start =>
    obtain ⟨c, s', hrun, hseen, hat⟩ := Cursor.start_run h.rooted
    simp only [Scene.turn, hrun]
    exact ⟨t, h.seen hseen fun heq => Option.some.inj heq ▸ hat.lies h.rooted h.cells⟩
  | advance =>
    refine ⟨t, h.walk fun hc => ?_⟩
    obtain ⟨w, hrun, hseen, hlies⟩ := (h.lies hc).advance_run h.rooted h.cells
    exact ⟨w, by rw [hrun], hseen, hlies⟩
  | value =>
    refine ⟨t, h.walk fun hc => ?_⟩
    obtain ⟨s', hseen, hrun⟩ := (h.lies hc).value_seen
    exact ⟨_, hrun, hseen, h.lies hc⟩

/-- **A run of turns.** -/
theorem turns (h : r.Kept T t) (as : List Turn) : ∃ t', (as.foldl (Scene.turn T) r).Kept T t' := by
  induction as generalizing r t with
  | nil => exact ⟨t, h⟩
  | cons a as ih =>
    obtain ⟨t', h'⟩ := h.turn a
    exact ih h'

end Kept

end Scene

/-! ## All runs -/

/-- **A cursor reads what was inserted, unless the root was split under it.** On a new table, let
inserts and a cursor take turns in any order. Then a cursor can be started, and if the one that was
started last is not at the end, it can move on. It reads a cell that was inserted, or it is still on
the root's page, which has become an internal node. There it reads the bytes that would be its cell
if the page were a leaf, whatever they are, and panics if its cell number is past the last cell that
a leaf has room for. -/
theorem cursor_reads_inserted (path : String) (config : Config) (turns : List Turn) :
    ∃ t, Table.ofFile path #[] config = .ok t ∧
      let r := turns.foldl (Scene.turn t.tree) { pager := t.pager }
      (∃ c, (Cursor.start t.tree r.pager).1 = .ok c) ∧
      ∀ c, r.cursor = some c → c.atEnd = false →
        (Walk.advance ⟨c, r.pager⟩).1 = .ok () ∧
        ((∃ x ∈ r.inserted, (Walk.value ⟨c, r.pager⟩).1 = .ok (x.key, x.value)) ∨
          c.page = t.tree.root ∧ ∃ p, (Pager.node c.page r.pager).1 = .ok (.internal, p) ∧
            (Walk.value ⟨c, r.pager⟩).1 =
              if c.cell < leafCapacity then .ok (p.cellKey c.cell, p.cellValue c.cell)
              else .error .misused) := by
  obtain ⟨t, hopen, hstores⟩ := Table.ofFile_stores path config
  have hnew : Scene.Kept t.tree (.leaf rootPage []) { pager := t.pager } := by
    refine ⟨hstores.sound, hstores.rooted, ?_, fun hc => by cases hc⟩
    rw [PageTree.cells_leaf]
    exact List.nil_subset _
  obtain ⟨T, h⟩ := hnew.turns turns
  obtain ⟨c₀, _, hstart, -⟩ := Cursor.start_run h.rooted
  refine ⟨t, hopen, ⟨c₀, congrArg Prod.fst hstart⟩, fun c hc hend => ⟨?_, ?_⟩⟩
  · obtain ⟨w, hrun, -⟩ := (h.lies hc).advance_run h.rooted h.cells
    exact congrArg Prod.fst hrun
  · rw [← h.rooted.id_eq]
    exact (h.lies hc).value_run hend

/-! ## A cursor on a root that is split -/

namespace Scene

variable {T : Tree} {r : Scene} {p : Page}

/-- Inserts that there is room for leave the cursor where it is. -/
theorem inserts_run {xs : List Cell} (h : Table.Stocked 0 ⟨T, r.pager⟩ t)
    (hxs : Table.Takes ⟨T, r.pager⟩ t xs) :
    ∃ s t', (xs.map Turn.insert).foldl (turn T) r =
        { r with pager := s, inserted := xs.reverse ++ r.inserted } ∧
      Table.Stocked 0 ⟨T, s⟩ t' ∧ t'.cells.Perm (xs ++ t.cells) := by
  induction xs generalizing r t with
  | nil => exact ⟨r.pager, t, rfl, h, .refl _⟩
  | cons x xs ih =>
    obtain ⟨s₁, t₁, hrun₁, h₁, hxs₁, hperm₁⟩ := h.insert_first hxs
    obtain ⟨s₂, t₂, hrun₂, h₂, hperm₂⟩ :=
      ih (r := { r with pager := s₁, inserted := x :: r.inserted }) h₁ hxs₁
    refine ⟨s₂, t₂, ?_, h₂, hperm₂.trans hperm₁⟩
    have hturn : turn T r (.insert x) = { r with pager := s₁, inserted := x :: r.inserted } := by
      rw [turn, hrun₁]
    rw [List.map_cons, List.foldl_cons, hturn, hrun₂, List.reverse_cons, List.append_assoc,
      List.singleton_append]

/-- A cursor that starts on a tree of few cells is on the root's page. -/
theorem start_of_few (h : Table.Stocked 0 ⟨T, r.pager⟩ t) (hne : t.cells ≠ [])
    (hfew : t.cells.length < 2 * T.config.leafMin) :
    turn T r .start = { r with cursor := some { page := T.root } } := by
  obtain ⟨d, hd, hlevel⟩ := h.level
  have hleaf : t = .leaf t.id t.cells :=
    PageTree.eq_leaf_of_few hlevel hd h.stands.rooted.within hfew
  obtain ⟨c, hstart, hat⟩ := h.stands.start_run
  rw [hleaf] at hat
  obtain rfl := hat.eq_of_leaf (PageTree.cells_leaf _ _) hne
  rw [h.stands.rooted.id_eq] at hstart
  rw [turn, hstart]

/-- A cursor passes as many cells as its page counts keys. -/
theorem advances_run {kind : NodeKind} {n : Nat} (hc : r.cursor = some c) (hend : c.atEnd = false)
    (hn : r.pager.view.node? c.page = some (kind, p)) (hlt : c.cell + n < p.count) :
    ∃ s, r.pager.Seen s ∧ (List.replicate n Turn.advance).foldl (turn T) r =
      { r with pager := s, cursor := some { c with cell := c.cell + n } } := by
  induction n generalizing r c with
  | zero =>
    obtain ⟨s, _, inserted⟩ := r
    obtain rfl := hc
    exact ⟨s, .refl s, rfl⟩
  | succ n ih =>
    have hturn : turn T r .advance = { r with
        pager := r.pager.fetched c.page
        cursor := some { c with cell := c.cell + 1 } } := by
      rw [turn, walk, hc]
      dsimp only
      rw [Walk.advance_node (w := ⟨c, r.pager⟩) hn hend, if_pos (by show c.cell + 1 < _; omega),
        Walk.move_run]
    obtain ⟨s, hseen, hrun⟩ := ih (r := turn T r .advance) (c := { c with cell := c.cell + 1 })
      (by rw [hturn]) hend (by rw [hturn, view_fetched]; exact hn) (by dsimp only; omega)
    rw [hturn] at hseen hrun
    refine ⟨s, (Seen.node hn).trans hseen, ?_⟩
    rw [List.replicate_succ, List.foldl_cons, hturn, hrun]
    dsimp only
    rw [Nat.add_right_comm, Nat.add_assoc]

end Scene

/-- A cursor that is left on the root's page when the root is split passes sixty keys of the
internal node. The page loads, but reading there panics. -/
theorem cursor_overruns_root :
    let cells := Table.numbered (Vector.replicate _ 0) 184
    ∃ t, Table.ofFile defaultPath #[] { leafMax := 3 } = .ok t ∧
      let turns : List Turn := (cells.take 1).map .insert ++ [.start] ++
        (cells.drop 1).map .insert ++ List.replicate 60 .advance
      let r := turns.foldl (Scene.turn t.tree) { pager := t.pager }
      r.inserted = cells.reverse ∧ ∃ c, r.cursor = some c ∧ c.atEnd = false ∧
        (∃ p, (Pager.node c.page r.pager).1 = .ok (.internal, p)) ∧
        (Walk.value ⟨c, r.pager⟩).1 = .error .misused := by
  intro cells
  obtain ⟨t, hopen, htree, h₀, htakes⟩ := Table.ofFile_takes defaultPath { leafMax := 3 }
    (by decide) (Vector.replicate _ 0) (n := 184) (by decide)
  have hlen : cells.length = 184 := Table.length_numbered _ _
  obtain ⟨x, xs, hcells⟩ := List.exists_cons_of_length_pos (l := cells) (by omega)
  rw [hcells, List.length_cons] at hlen
  rw [show Table.numbered _ 184 = x :: xs from hcells] at htakes
  have hlo : t.tree.config.leafMin = 2 := by rw [htree]; rfl
  have hhi : t.tree.config.fill.leafHi = 3 := by rw [htree]; rfl
  -- With one cell the tree is a leaf on the root's page, and the cursor starts there.
  obtain ⟨s₁, T₁, hrun₁, h₁, htakes₁, hperm₁⟩ := h₀.insert_first htakes
  have hlen₁ := hperm₁.length_eq
  rw [PageTree.cells_leaf, List.append_nil, List.length_append, List.length_cons] at hlen₁
  have hinsert : Scene.turn t.tree { pager := t.pager } (.insert x) =
      { pager := s₁, inserted := [x] } := by
    rw [Scene.turn, hrun₁]
  have hstart := Scene.start_of_few (r := { pager := s₁, inserted := [x] }) h₁
    (List.ne_nil_of_length_pos (by omega)) (by omega)
  -- With all cells the root is an internal node, and the cursor passes its keys.
  obtain ⟨s₂, T₂, hrun₂, h₂, hperm₂⟩ := Scene.inserts_run
    (r := { pager := s₁, cursor := some { page := t.tree.root }, inserted := [x] }) h₁ htakes₁
  have hlen₂ := hperm₂.length_eq
  rw [List.length_append] at hlen₂
  obtain ⟨d₂, hd₂, hlevel₂⟩ := h₂.level
  obtain ⟨p, hn, hwide⟩ := h₂.stands.rooted.wide hlevel₂ hd₂ (by dsimp only; omega)
  dsimp only at hwide
  rw [hhi] at hwide
  obtain ⟨s₃, hseen, hrun₃⟩ := Scene.advances_run (T := t.tree) (n := 60)
    (r := { pager := s₂, cursor := some { page := t.tree.root }, inserted := xs.reverse ++ [x] })
    rfl rfl hn (by dsimp only; omega)
  refine ⟨t, hopen, ?_⟩
  rw [hcells]
  simp only [List.take_succ_cons, List.take_zero, List.drop_succ_cons, List.drop_zero,
    List.map_cons, List.map_nil, List.foldl_append, List.foldl_cons, List.foldl_nil]
  rw [hinsert, hstart, hrun₂, hrun₃]
  rw [← hseen.view] at hn
  refine ⟨List.reverse_cons.symm, _, rfl, rfl, ⟨p, congrArg Prod.fst (Pager.node_run hn)⟩, ?_⟩
  rw [Walk.value_node hn rfl]
  dsimp only
  rw [Page.cell?_eq_none p (by decide)]

end PagedTable
