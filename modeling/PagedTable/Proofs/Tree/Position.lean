import PagedTable.Proofs.Tree.SplitCost

/-!
# Where a search ends

* `View.Rightmost`: right children lead to a page.
* `Position.Divides`: the position is the place in the whole sequence of cells where the key is or
  belongs.
* `search_divides`: a search ends there. Only on the rightmost leaf the place comes after the last
  cell, so a cell that is put there leaves every leaf with a separator above it ending with the same
  key as before.
-/

namespace PagedTable

open PagedTable.Action Pager Crumb
open PageTree (plug)

/-- Right children lead from one page to another, or the pages are the same. -/
def View.Rightmost (m : View) : PageId → PageId → Prop :=
  Relation.ReflTransGen fun id c => ∃ p, m.node? id = some (.internal, p) ∧ p.rightChild = c

/-- The position, on the leaf with the page `p`, divides the cells below `root` at `key`. The cells
of the leaf stand between those in `left` and those in `right`. -/
structure Position.Divides (pos : Position) (m : View) (root : PageId) (key : Key) (p : Page)
    (left right : List Cell) : Prop where
  reached : m.Reaches root pos.page
  leaf : m.node? pos.page = some (.leaf, p)
  index_le : pos.index ≤ p.count
  cells_eq : m.cellsBelow root = left ++ p.cells ++ right
  before_lt : ∀ c ∈ left ++ p.cells.take pos.index, c.key < key
  le_after : ∀ c ∈ p.cells.drop pos.index ++ right, key ≤ c.key
  /-- The key is found exactly if the cell at the position has it. -/
  found_iff : pos.found = true ↔ p.cells[pos.index]?.map Cell.key = some key
  found_iff_mem : pos.found = true ↔ key ∈ m.keysBelow root
  /-- The position comes after the last cell of its leaf only if no leaf follows. -/
  last : pos.index = p.count → right = [] ∧ m.Rightmost root pos.page

/-- Steps to the last subtree follow right children. -/
theorem Held.rightmost {m : View} {root : PageId} {cs : List Crumb} {t : PageTree}
    (h : Held m root none (plug cs t)) (hcs : Crumb.Rightmost cs) :
    m.Rightmost (plug cs t).id t.id := by
  induction cs generalizing t with
  | nil => exact .refl
  | cons c cs ih =>
    obtain ⟨hc, hcs⟩ := rightmost_cons.mp hcs
    obtain ⟨p, hp, hchildren, -⟩ := h.node_of_plug
    rw [hc, List.map_nil, Page.children_eq] at hchildren
    have hright : p.rightChild = t.id := by
      obtain ⟨-, hlast⟩ := List.append_inj' hchildren rfl
      exact List.singleton_inj.mp hlast
    exact (ih (t := c.around [t]) h hcs).tail ⟨p, hp, hright⟩

namespace Tree

variable {T : Tree} {s : Pager} {f : Fill} {t : PageTree} {x : Cell}

/-- **A cell that is put where the search ends**, into a leaf with room. Nothing but the leaf
changes. -/
theorem insert_room_update {p : Page} (h : Rooted s.view T.root f t) (sp : t.Spot x.key)
    (hn : s.view.node? sp.leaf = some (.leaf, p)) {s₁ : Pager}
    (hseen₁ : s.Seen s₁) (hrun₁ : T.search x.key s = (.ok ⟨sp.leaf, sp.index, false⟩, s₁))
    (hroom : sp.cells.length < T.config.leafMax) :
    ∃ q, q.cells = p.cells.insertIdx sp.index x ∧ (T.insert x.key x.value s).2.view =
      Function.update s.view sp.leaf (some { page := q, dirty := true }) := by
  have hmax : T.config.leafMax ≤ leafCapacity := T.config.leafMax_le
  obtain ⟨p', hn', -, -, hcount⟩ := sp.node h.held
  rw [hn] at hn'
  cases hn'
  obtain ⟨⟨d, hv⟩, -⟩ := View.node?_eq_some_iff.mp hn
  obtain ⟨q, hq, -, hcells⟩ :=
    Page.insertCell?_of_lt (p := p) x (hcount ▸ sp.index_le) (by omega)
  obtain ⟨s₂, hseen₂, hrun₂⟩ := insert_absent_run h sp hseen₁ hrun₁
  rw [if_pos hroom] at hrun₂
  rw [← hseen₂.view] at hv
  have hedit := edit_run (g := fun p => p.insertCell? sp.index x) hv hq
  refine ⟨q, hcells, ?_⟩
  rw [hrun₂, hedit, view_wrote hv, hseen₂.view]

/-- **The spot of a key** divides the cells of the tree. -/
theorem divides_spot {key : Key} {found : Bool} {p : Page} (h : Rooted s.view T.root f t)
    (sp : t.Spot key) (hfound : found = true ↔ key ∈ t.keys)
    (hn : s.view.node? sp.leaf = some (.leaf, p)) :
    Position.Divides ⟨sp.leaf, sp.index, found⟩ s.view T.root key p (leftCells sp.crumbs)
      (rightCells sp.crumbs) := by
  obtain ⟨p', hn', -, hcells, hcount⟩ := sp.node h.held
  rw [hn] at hn'
  cases hn'
  have hunf := h.held.unfolds
  constructor
  case reached =>
    rw [← h.id_eq, hunf.reaches_iff]
    exact sp.pages_perm.mem_iff.mpr List.mem_cons_self
  case leaf => exact hn
  case index_le => exact hcount ▸ sp.index_le
  case cells_eq =>
    rw [← h.id_eq, hunf.cellsBelow_eq, hcells]
    conv_lhs => rw [← sp.plug_eq, PageTree.cells_plug, PageTree.cells_leaf]
  case before_lt =>
    intro c hc
    rw [hcells] at hc
    exact sp.lt_of_mem_before hc
  case le_after =>
    intro c hc
    rw [hcells] at hc
    exact sp.le_of_mem_after hc
  case found_iff => rw [hfound, sp.mem_keys_iff h.ordered, hcells, List.getElem?_map]
  case found_iff_mem => rw [hfound, ← h.id_eq, hunf.keysBelow_eq]
  case last =>
    intro hlast
    have hright : Crumb.Rightmost sp.crumbs := by
      refine sp.index_lt_or.resolve_left (Nat.not_lt.mpr (Nat.le_of_eq ?_))
      exact hcount.symm.trans hlast.symm
    obtain ⟨hheld, hid, -⟩ := sp.opened h
    exact ⟨hright.rightCells, hid ▸ hheld.rightmost hright⟩

/-- **A search divides the cells of the tree.** In a tree that passes the check it ends on a leaf,
at an index up to the number of its cells. All cells of the tree before this place have smaller
keys, all from it on have keys that are no smaller, and the key is found exactly if the cell there
has it. The place comes after the last cell of its leaf only if the leaf is the rightmost one. If
the key is absent and the leaf has room, an insert puts the new cell there and changes no other
page, and every separator is still the greatest key below its child. -/
theorem search_divides (T : Tree) (s : Pager) (key : Key) (hs : s.Reachable)
    (hvalid : (T.validate s).1 = .ok ()) :
    ∃ pos p left right, (T.search key s).1 = .ok pos ∧
      pos.Divides s.view T.root key p left right ∧
      (pos.found = false → p.count < T.config.leafMax → ∀ value,
        (T.insert key value s).1 = .ok () ∧
        (∃ q, q.cells = p.cells.insertIdx pos.index ⟨key, value⟩ ∧
          (T.insert key value s).2.view =
            Function.update s.view pos.page (some { page := q, dirty := true })) ∧
        ∀ id q l, (T.insert key value s).2.view.Reaches T.root id →
          (T.insert key value s).2.view.node? id = some (.internal, q) → l ∈ q.links →
          IsGreatest {k | k ∈ (T.insert key value s).2.view.keysBelow l.child} l.key) := by
  obtain ⟨t, h⟩ := validate_eq_ok_iff.mp hvalid
  obtain ⟨sp, found, s₁, hfound, hseen₁, hrun₁⟩ := search_run h key
  obtain ⟨p, hn, -, -, hcount⟩ := sp.node h.held
  refine ⟨_, p, _, _, congrArg Prod.fst hrun₁, divides_spot h sp hfound hn,
    fun hnot hroom value => ?_⟩
  -- The key is absent, so the place is where an insert goes.
  obtain rfl : found = false := hnot
  have habsent : key ∉ t.keys := fun hmem => Bool.false_ne_true (hfound.mpr hmem)
  rw [hcount] at hroom
  obtain ⟨s', hrun, -, -, hrooted, -⟩ := insert_room_run (x := ⟨key, value⟩)
    T.config.fill_admits hs.sound h sp habsent hseen₁ hrun₁ hroom
  refine ⟨congrArg Prod.fst hrun,
    insert_room_update (x := ⟨key, value⟩) h sp hn hseen₁ hrun₁ hroom, ?_⟩
  rw [hrun]
  exact fun id q l hr hq hl => hrooted.linked.separators hr hq hl

/-- A key that belongs behind all others, in a tree of three leaves with room for one more cell
each. -/
theorem search_divides_root :
    let T : Tree := { root := rootPage, config := { leafMax := 3 } }
    ∃ s : Pager, s.Reachable ∧ (T.validate s).1 = .ok () ∧
      ∃ pos p left right, (T.search 7 s).1 = .ok pos ∧ pos.found = false ∧
        pos.Divides s.view T.root 7 p left right ∧ right = [] ∧
        (T.insert 7 (Vector.replicate _ 0) s).1 = .ok () := by
  intro T
  obtain ⟨s, hund, -, h⟩ := PageTree.exists_threeLeaves T.config (by decide)
  change Rooted s.view T.root T.config.fill _ at h
  have hvalid := validate_eq_ok_iff.mpr ⟨_, h⟩
  obtain ⟨pos, p, left, right, hsearch, hdivides, hinsert⟩ :=
    search_divides T s 7 hund.reachable hvalid
  have hbelow : s.view.keysBelow T.root = [1, 2, 3, 4, 5, 6] := by
    rw [← h.id_eq, h.held.unfolds.keysBelow_eq, PageTree.keys_threeLeaves]
  have habsent : pos.found = false := by
    refine Bool.eq_false_iff.mpr fun htrue => ?_
    have hmem := hdivides.found_iff_mem.mp htrue
    rw [hbelow] at hmem
    exact absurd hmem (by decide)
  obtain ⟨-, hlen⟩ := PageTree.leaf_of_mem_threeLeaves (search_leaf h hsearch hdivides.leaf)
  refine ⟨s, hund.reachable, hvalid, pos, p, left, right, hsearch, habsent, hdivides, ?_,
    (hinsert habsent ?_ _).1⟩
  -- All keys are smaller, so nothing comes from the position on.
  · refine List.eq_nil_iff_forall_not_mem.mpr fun c hc => ?_
    have hle := hdivides.le_after c (List.mem_append_right _ hc)
    have hmem : c.key ∈ s.view.keysBelow T.root := by
      rw [View.keysBelow, hdivides.cells_eq]
      exact List.mem_map_of_mem (List.mem_append_right _ hc)
    rw [hbelow] at hmem
    have hlt : ∀ key ∈ [(1 : Key), 2, 3, 4, 5, 6], key < 7 := by simp
    exact absurd hle (UInt32.not_le.mpr (hlt c.key hmem))
  · rw [← Page.length_cells, hlen]
    decide

end Tree

end PagedTable
