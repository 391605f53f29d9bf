import PagedTable.Node.Edit
import PagedTable.Node.Search
import PagedTable.Page.Lemmas

/-!
# Lemmas about nodes

What each change of a node does to what the node is read as.

* `Page.load_eq_ok_iff`: the pages that load as a leaf or as an internal node.
* `Page.cells?_eq`, `Page.separators?_eq`, `Page.children?_eq`: on a page that loads, all that is
  counted can be read.
* `Page.cells_of_setCells?`, `Page.cells_of_insertCell?`: the cells of a leaf after its cells are
  replaced, and after one is inserted.
* `Page.cell_setCells?`, `Page.cell_insertCell?`: what may stand in any place of a leaf then,
  counted or not.
* `Page.links_of_setLinks?`, `Page.links_of_insertLink?`, `Page.children_of_setChild?`: the same for
  the links and the children of an internal node.
-/

namespace PagedTable

@[simp] theorem Cell.length_bytes (c : Cell) : c.bytes.length = cellWidth := by
  simp [Cell.bytes]

@[simp] theorem Link.length_bytes (l : Link) : l.bytes.length = linkWidth := rfl

/-- The length of pieces of one width. -/
theorem length_flatMap_of_width {α : Type} {f : α → List UInt8} {w : Nat}
    (h : ∀ a, (f a).length = w) (xs : List α) : (xs.flatMap f).length = xs.length * w := by
  induction xs with
  | nil => simp
  | cons x xs ih =>
    rw [List.flatMap_cons, List.length_append, h, ih, List.length_cons, Nat.add_mul, Nat.one_mul,
      Nat.add_comm]

namespace Page

/-! ## Where cells and links stand -/

theorem cellAt_eq (i : Nat) : cellAt i = 10 + i * 68 := rfl

theorem linkAt_eq (i : Nat) : linkAt i = 14 + i * 8 := rfl

theorem internalHeader_le_linkAt (i : Nat) : internalHeader ≤ linkAt i := Nat.le_add_right _ _

theorem cellAt_add (i n : Nat) : cellAt (i + n) = cellAt i + n * cellWidth := by
  simp only [cellAt, Nat.add_mul, Nat.add_assoc]

theorem linkAt_add (i n : Nat) : linkAt (i + n) = linkAt i + n * linkWidth := by
  simp only [linkAt, Nat.add_mul, Nat.add_assoc]

/-- A cell that a page has room for lies in it. -/
theorem cell_within {i : Nat} (h : i < leafCapacity) :
    Within (cellAt i) 4 ∧ Within (cellAt i + 4) rowWidth := by
  have h : i < 60 := h
  show 10 + i * 68 + 4 ≤ 4096 ∧ 10 + i * 68 + 4 + 64 ≤ 4096
  omega

/-- A link that a page has room for lies in it. -/
theorem link_within {i : Nat} (h : i < internalCapacity) :
    Within (linkAt i) 4 ∧ Within (linkAt i + 4) 4 := by
  have h : i < 510 := h
  show 14 + i * 8 + 4 ≤ 4096 ∧ 14 + i * 8 + 4 + 4 ≤ 4096
  omega

/-- As many cells as a page has room for lie in it. -/
theorem cells_within {n : Nat} (h : n ≤ leafCapacity) : Within leafHeader (n * cellWidth) := by
  have h : n ≤ 60 := h
  show 10 + n * 68 ≤ 4096
  omega

/-- As many links as a page has room for lie in it. -/
theorem links_within {n : Nat} (h : n ≤ internalCapacity) :
    Within internalHeader (n * linkWidth) := by
  have h : n ≤ 510 := h
  show 14 + n * 8 ≤ 4096
  omega

/-- Counts that a page has room for fit into a word. -/
theorem capacity_lt {n : Nat} (h : n ≤ internalCapacity) : n < UInt32.size :=
  Nat.lt_of_le_of_lt h (by decide)

theorem leafCapacity_le : leafCapacity ≤ internalCapacity := by decide

theorem ofTag_eq_ok_iff {tag : UInt8} {kind : NodeKind} :
    NodeKind.ofTag tag = .ok kind ↔ tag = kind.tag := by
  unfold NodeKind.ofTag
  split
  · rename_i h
    subst h
    cases kind <;> simp [NodeKind.tag]
  · split
    · rename_i h
      subst h
      cases kind <;> simp [NodeKind.tag]
    · cases kind <;> simp [NodeKind.tag, *]

/-- A page loads if its tag is known and it has room for what it counts. -/
theorem load_eq_ok_iff {p : Page} {id : PageId} {kind : NodeKind} :
    p.load id = .ok kind ↔ p.tag = kind.tag ∧ p.count ≤ capacity kind := by
  unfold load Page.kind
  rw [← ofTag_eq_ok_iff]
  cases h : NodeKind.ofTag p.tag with
  | error e => simp
  | ok k =>
    cases k <;> simp only [] <;> split <;> cases kind <;> simp_all [capacity]

/-! ## Reading what is counted -/

theorem collect_eq {α : Type} {item : Nat → Option α} {f : Nat → α} {start n : Nat}
    (h : ∀ i, start ≤ i → i < start + n → item i = some (f i)) :
    collect item start n = some ((List.range n).map fun i => f (start + i)) := by
  induction n generalizing start with
  | zero => rfl
  | succ n ih =>
    rw [collect, h start (by omega) (by omega), ih fun i h₁ h₂ => h i (by omega) (by omega)]
    simp only [Option.bind_eq_bind, Option.bind_some, Option.pure_def, Option.some.injEq]
    rw [List.range_succ_eq_map, List.map_cons, List.map_map]
    congr 1
    apply List.map_congr_left
    intro i _
    simp only [Function.comp_apply]
    congr 1
    omega

theorem cellKey?_eq (p : Page) {i : Nat} (h : i < leafCapacity) :
    p.cellKey? i = some (p.cellKey i) :=
  word?_eq (cell_within h).1

theorem cellValue?_eq (p : Page) {i : Nat} (h : i < leafCapacity) :
    p.cellValue? i = some (p.cellValue i) :=
  payload?_eq (cell_within h).2

theorem cell?_eq (p : Page) {i : Nat} (h : i < leafCapacity) : p.cell? i = some (p.cell i) := by
  rw [cell?, cellKey?_eq p h, cellValue?_eq p h]
  rfl

/-- A page ends before the value of a cell that it has no room for. -/
theorem cell?_eq_none (p : Page) {i : Nat} (h : leafCapacity ≤ i) : p.cell? i = none := by
  have hout : ¬ Within (cellAt i + 4) rowWidth := by
    have h : 60 ≤ i := h
    show ¬ 10 + i * 68 + 4 + 64 ≤ 4096
    omega
  have hvalue : p.cellValue? i = none := if_neg hout
  rw [cell?, hvalue]
  cases p.cellKey? i <;> rfl

theorem cells?_eq {p : Page} (h : p.count ≤ leafCapacity) : p.cells? = some p.cells := by
  rw [cells?, collect_eq (f := p.cell) fun i _ hi => cell?_eq p (by omega)]
  simp only [Nat.zero_add]
  rfl

theorem cellKeys?_eq {p : Page} (h : p.count ≤ leafCapacity) : p.cellKeys? = some p.cellKeys := by
  rw [cellKeys?, collect_eq (f := p.cellKey) fun i _ hi => cellKey?_eq p (by omega)]
  simp only [Nat.zero_add]
  rfl

theorem separator?_eq (p : Page) {i : Nat} (h : i < internalCapacity) :
    p.separator? i = some (p.separator i) :=
  word?_eq (link_within h).2

theorem child?_eq {p : Page} (h : p.count ≤ internalCapacity) {i : Nat} (hi : i ≤ p.count) :
    p.child? i = some (p.child i) := by
  unfold child? child
  split
  · rfl
  · rw [word?_eq (link_within (by omega)).1]
    rfl

theorem separators?_eq {p : Page} (h : p.count ≤ internalCapacity) :
    p.separators? = some p.separators := by
  rw [separators?, collect_eq (f := p.separator) fun i _ hi => separator?_eq p (by omega)]
  simp only [Nat.zero_add]
  rfl

theorem children?_eq {p : Page} (h : p.count ≤ internalCapacity) :
    p.children? = some p.children := by
  rw [children?, collect_eq (f := p.child) fun i _ hi => child?_eq h (by omega)]
  simp only [Nat.zero_add]
  rfl

@[simp] theorem length_cells (p : Page) : p.cells.length = p.count := by simp [cells]

@[simp] theorem length_cellKeys (p : Page) : p.cellKeys.length = p.count := by simp [cellKeys]

@[simp] theorem length_separators (p : Page) : p.separators.length = p.count := by
  simp [separators]

@[simp] theorem length_links (p : Page) : p.links.length = p.count := by simp [links]

@[simp] theorem length_children (p : Page) : p.children.length = p.count + 1 := by
  simp [children]

theorem map_key_cells (p : Page) : p.cells.map Cell.key = p.cellKeys := by
  simp [cells, cellKeys, cell, Function.comp_def]

/-! ## Header -/

theorem count_setCount (p : Page) {n : Nat} (h : n < UInt32.size) : (p.setCount n).count = n := by
  rw [count, setCount, word_setWord _ _ (by decide)]
  exact UInt32.toNat_ofNat_of_lt' h

@[simp] theorem count_setParent (p : Page) (id : PageId) : (p.setParent id).count = p.count := by
  rw [count, setParent, word_setWord_of_disjoint _ _ (by decide)]
  rfl

@[simp] theorem count_setRightChild (p : Page) (id : PageId) :
    (p.setRightChild id).count = p.count := by
  rw [count, setRightChild, word_setWord_of_disjoint _ _ (by decide)]
  rfl

theorem count_overlay (p : Page) {off : Nat} (bs : List UInt8) (h : leafHeader ≤ off) :
    (p.overlay off bs).count = p.count := by
  have h : 10 ≤ off := h
  rw [count, word_overlay_of_disjoint _ (by omega)]
  rfl

@[simp] theorem parent_setParent (p : Page) (id : PageId) : (p.setParent id).parent = id := by
  rw [parent, setParent, word_setWord _ _ (by decide)]

@[simp] theorem isRoot_setRoot (p : Page) (root : Bool) : (p.setRoot root).isRoot = root := by
  rw [isRoot, setRoot, byte_setIfInBounds, if_pos (by decide)]
  cases root <;> rfl

theorem tag_setRoot (p : Page) (root : Bool) : (p.setRoot root).tag = p.tag := by
  rw [tag, setRoot, byte_setIfInBounds, if_neg (by decide)]
  rfl

/-! ## Leaves -/

/-- The cells that begin at cell `i` are those whose bytes stand there. -/
theorem cell_of_slice {p : Page} {i : Nat} {c : Cell}
    (h : p.slice (cellAt i) cellWidth = c.bytes) : p.cell i = c := by
  rw [show cellWidth = 4 + rowWidth from rfl, slice_add, Cell.bytes] at h
  obtain ⟨h₁, h₂⟩ := List.append_inj h (by simp)
  rw [cell, cellKey, cellValue, word_eq_of_slice h₁, payload_eq_of_slice h₂]

/-- The bytes of a cell. -/
theorem bytes_cell (p : Page) (i : Nat) : (p.cell i).bytes = p.slice (cellAt i) cellWidth := by
  rw [show cellWidth = 4 + rowWidth from rfl, slice_add, Cell.bytes, cell, cellKey, cellValue,
    wordBytes_word, toList_payload]

/-- The bytes of the `n` cells from cell `i` on. -/
theorem slice_cells (p : Page) (i n : Nat) :
    p.slice (cellAt i) (n * cellWidth) = ((List.range n).map fun j => p.cell (i + j)).flatMap
      Cell.bytes := by
  induction n with
  | zero => rfl
  | succ n ih =>
    rw [Nat.add_mul, Nat.one_mul, slice_add, ih, List.range_succ, List.map_append,
      List.flatMap_append, List.map_singleton, List.flatMap_singleton, bytes_cell]
    congr 2
    simp only [cellAt, Nat.add_mul]
    omega

/-- Cells that stand one after another from cell `i` on are read back. -/
theorem cell_of_slice_flatMap {p : Page} {i : Nat} {cs : List Cell}
    (h : p.slice (cellAt i) (cs.length * cellWidth) = cs.flatMap Cell.bytes) {j : Nat}
    (hj : j < cs.length) : p.cell (i + j) = cs[j] := by
  rw [slice_cells] at h
  induction cs generalizing i j with
  | nil => simp at hj
  | cons c cs ih =>
    rw [List.length_cons, List.range_succ_eq_map, List.map_cons, List.flatMap_cons,
      List.flatMap_cons] at h
    obtain ⟨h₁, h₂⟩ := List.append_inj h (by simp)
    rw [bytes_cell] at h₁
    cases j with
    | zero => exact cell_of_slice h₁
    | succ j =>
      rw [List.getElem_cons_succ, show i + (j + 1) = (i + 1) + j by omega]
      apply ih
      rw [List.map_map] at h₂
      rw [← h₂]
      congr 1
      apply List.map_congr_left
      intro k _
      simp only [Function.comp_apply]
      congr 1
      omega

/-- The bytes of the cells of a leaf. -/
theorem flatMap_bytes_cells (p : Page) :
    p.cells.flatMap Cell.bytes = p.slice leafHeader (p.count * cellWidth) := by
  have h := slice_cells p 0 p.count
  simp only [Nat.zero_add] at h
  rw [cells, ← h]
  simp [cellAt]

/-- What a page reads as if it keeps the bytes of another up to the cells, and has these cells. -/
theorem cells_of_slice {q : Page} {cs : List Cell} (hcount : q.count = cs.length)
    (h : q.slice leafHeader (cs.length * cellWidth) = cs.flatMap Cell.bytes) : q.cells = cs := by
  apply List.ext_getElem (by simp [hcount])
  intro i h₁ h₂
  simp only [cells, List.getElem_map, List.getElem_range]
  have := cell_of_slice_flatMap (p := q) (i := 0) (by simpa [cellAt] using h) h₂
  simpa using this

/-- **The cells of a leaf after they are replaced.** -/
theorem cells_of_setCells? {p q : Page} {cs : List Cell} (h : p.setCells? cs = some q) :
    q.cells = cs := by
  unfold setCells? at h
  split at h
  case isFalse => simp at h
  case isTrue hle =>
    simp only [Option.some.injEq] at h
    have hlen := length_flatMap_of_width Cell.length_bytes cs
    apply cells_of_slice
    · rw [← h, count_setCount _ (capacity_lt (Nat.le_trans hle leafCapacity_le))]
    · rw [← h, setCount, setWord, slice_overlay_of_disjoint _ (by simp), ← hlen]
      exact slice_overlay _ (by rw [hlen]; exact cells_within hle)

theorem cell_congr {p q : Page} {i j : Nat}
    (h : p.slice (cellAt i) cellWidth = q.slice (cellAt j) cellWidth) : p.cell i = q.cell j :=
  cell_of_slice (by rw [h, bytes_cell])

@[simp] theorem cell_setCount (p : Page) (n i : Nat) : (p.setCount n).cell i = p.cell i := by
  apply cell_congr
  have := cellAt_eq i
  exact slice_overlay_of_disjoint _ (by simp; omega)

theorem cell_setCell (p : Page) (c : Cell) {i : Nat} (h : i < leafCapacity) :
    (p.setCell i c).cell i = c := by
  apply cell_of_slice
  rw [setCell, ← Cell.length_bytes c]
  apply slice_overlay
  rw [Cell.length_bytes]
  have h : i < 60 := h
  show 10 + i * 68 + 68 ≤ 4096
  omega

theorem cell_setCell_of_ne (p : Page) (c : Cell) {i j : Nat} (h : j ≠ i) :
    (p.setCell i c).cell j = p.cell j := by
  apply cell_congr
  apply slice_overlay_of_disjoint
  rw [Cell.length_bytes]
  show 10 + j * 68 + 68 ≤ 10 + i * 68 ∨ 10 + i * 68 + 68 ≤ 10 + j * 68
  omega

theorem cell_shiftCells_of_lt (p : Page) {i j : Nat} (h : j < i) :
    (p.shiftCells i).cell j = p.cell j := by
  apply cell_congr
  apply slice_overlay_of_disjoint
  left
  show 10 + j * 68 + 68 ≤ 10 + (i + 1) * 68
  omega

theorem cell_shiftCells_succ (p : Page) {i j : Nat} (hcount : p.count < leafCapacity) (hi : i ≤ j)
    (hj : j < p.count) : (p.shiftCells i).cell (j + 1) = p.cell j := by
  apply cell_congr
  have hcount : p.count < 60 := hcount
  have hnew : cellAt (j + 1) = cellAt (i + 1) + (j - i) * cellWidth := by
    rw [← cellAt_add]
    congr 1
    omega
  have hold : cellAt j = cellAt i + (j - i) * cellWidth := by
    rw [← cellAt_add]
    congr 1
    omega
  rw [shiftCells, hnew, slice_overlay_slice, ← hold]
  · show 10 + (i + 1) * 68 + (p.count - i) * 68 ≤ 4096
    omega
  · show (j - i) * 68 + 68 ≤ (p.count - i) * 68
    omega

/-- Nothing moves behind the cells that are counted. -/
theorem cell_shiftCells_of_gt (p : Page) {i j : Nat} (hi : i ≤ p.count) (h : p.count < j) :
    (p.shiftCells i).cell j = p.cell j := by
  apply cell_congr
  apply slice_overlay_of_disjoint
  right
  rw [length_slice]
  show 10 + (i + 1) * 68 + (p.count - i) * 68 ≤ 10 + j * 68
  omega

/-- **The cells of a leaf after one is inserted.** Those from its place on move up. -/
theorem cells_of_insertCell? {p q : Page} {i : Nat} {c : Cell} (h : p.insertCell? i c = some q) :
    q.cells = p.cells.insertIdx i c := by
  unfold insertCell? at h
  split at h
  case isFalse => simp at h
  case isTrue hle =>
    obtain ⟨hi, hlt⟩ := hle
    simp only [Option.some.injEq] at h
    have hcount : q.count = p.count + 1 := by
      rw [← h, count_setCount _ (capacity_lt (Nat.le_trans hlt leafCapacity_le))]
    have hlen : (p.cells.insertIdx i c).length = p.count + 1 := by
      rw [List.length_insertIdx_of_le_length (by simpa using hi), length_cells]
    apply List.ext_getElem (by simp [hcount, hlen])
    intro j h₁ h₂
    have hj : j ≤ p.count := by omega
    rw [List.getElem_insertIdx]
    simp only [cells, List.getElem_map, List.getElem_range, ← h, cell_setCount]
    split
    · rename_i hlt'
      rw [cell_setCell_of_ne _ _ (by omega), cell_shiftCells_of_lt _ hlt']
    · split
      · rename_i heq
        rw [heq, cell_setCell _ _ (by omega)]
      · obtain ⟨k, rfl⟩ : ∃ k, j = k + 1 := ⟨j - 1, by omega⟩
        rw [cell_setCell_of_ne _ _ (by omega), cell_shiftCells_succ _ hlt (by omega) (by omega)]
        rfl

/-! ### Cells that are not counted

A reader that keeps its place while a leaf changes may read cells behind the count. -/

theorem cell_mem_cells {p : Page} {i : Nat} (h : i < p.count) : p.cell i ∈ p.cells :=
  List.mem_map_of_mem (List.mem_range.mpr h)

theorem count_le_of_setCells? {p q : Page} {cs : List Cell} (h : p.setCells? cs = some q) :
    q.count ≤ leafCapacity := by
  rw [← length_cells, cells_of_setCells? h]
  unfold setCells? at h
  split at h
  case isFalse => cases h
  case isTrue hle => exact hle

theorem count_le_of_insertCell? {p q : Page} {i : Nat} {c : Cell}
    (h : p.insertCell? i c = some q) : q.count ≤ leafCapacity := by
  rw [← length_cells, cells_of_insertCell? h]
  unfold insertCell? at h
  split at h
  case isFalse => cases h
  case isTrue hle =>
    rw [List.length_insertIdx_of_le_length (by simpa using hle.1), length_cells]
    exact hle.2

/-- Counted or not, a cell is one of the new ones, or stays. -/
theorem cell_setCells? {p q : Page} {cs : List Cell} (h : p.setCells? cs = some q) (i : Nat) :
    q.cell i ∈ cs ∨ q.cell i = p.cell i := by
  have hcells := cells_of_setCells? h
  by_cases hi : i < cs.length
  · left
    rw [← hcells] at hi ⊢
    exact cell_mem_cells (by simpa using hi)
  · right
    unfold setCells? at h
    split at h
    case isFalse => cases h
    case isTrue =>
      obtain rfl := Option.some.inj h
      rw [cell_setCount]
      apply cell_congr
      apply slice_overlay_of_disjoint
      right
      rw [length_flatMap_of_width Cell.length_bytes]
      show 10 + cs.length * 68 ≤ 10 + i * 68
      omega

/-- Counted or not, a cell is the new one, or one that was there or further down. -/
theorem cell_insertCell? {p q : Page} {i j : Nat} {c : Cell} (h : p.insertCell? i c = some q)
    (hj : j < leafCapacity) : q.cell j = c ∨ ∃ k ≤ j, q.cell j = p.cell k := by
  unfold insertCell? at h
  split at h
  case isFalse => cases h
  case isTrue hle =>
    obtain rfl := Option.some.inj h
    rw [cell_setCount]
    rcases Nat.lt_trichotomy j i with hlt | rfl | hgt
    · refine .inr ⟨j, Nat.le_refl j, ?_⟩
      rw [cell_setCell_of_ne _ _ (by omega), cell_shiftCells_of_lt _ hlt]
    · exact .inl (cell_setCell _ _ hj)
    · right
      rw [cell_setCell_of_ne _ _ (by omega)]
      by_cases hcounted : j ≤ p.count
      · obtain ⟨k, rfl⟩ : ∃ k, j = k + 1 := ⟨j - 1, by omega⟩
        exact ⟨k, Nat.le_succ k, cell_shiftCells_succ _ hle.2 (by omega) (by omega)⟩
      · exact ⟨j, Nat.le_refl j, cell_shiftCells_of_gt _ hle.1 (by omega)⟩

/-! ## Internal nodes -/

theorem map_key_links (p : Page) : p.links.map Link.key = p.separators := by
  simp [links, separators, link, Function.comp_def]

/-- The children are those of the links, and the right child. -/
theorem children_eq (p : Page) : p.children = p.links.map Link.child ++ [p.rightChild] := by
  rw [children, links, List.range_succ, List.map_append, List.map_map]
  congr 1
  · apply List.map_congr_left
    intro i hi
    have hi := List.mem_range.mp hi
    simp only [child, Function.comp_apply]
    rw [if_neg (by omega)]
  · simp [child]

/-- Every child but the last has a separator. -/
theorem zip_separators_children (p : Page) :
    p.separators.zip p.children = p.links.map fun l => (l.key, l.child) := by
  rw [← map_key_links, children_eq]
  induction p.links with
  | nil => rfl
  | cons l links ih => rw [List.map_cons, List.map_cons, List.cons_append, List.zip_cons_cons, ih,
      List.map_cons]

/-- The link whose bytes stand at link `i`. -/
theorem link_of_slice {p : Page} {i : Nat} {l : Link}
    (h : p.slice (linkAt i) linkWidth = l.bytes) : p.link i = l := by
  rw [show linkWidth = 4 + 4 from rfl, slice_add, Link.bytes] at h
  obtain ⟨h₁, h₂⟩ := List.append_inj h (by simp)
  rw [link, separator, word_eq_of_slice h₁, word_eq_of_slice h₂]

/-- The bytes of a link. -/
theorem bytes_link (p : Page) (i : Nat) : (p.link i).bytes = p.slice (linkAt i) linkWidth := by
  rw [show linkWidth = 4 + 4 from rfl, slice_add, Link.bytes, link, separator, wordBytes_word,
    wordBytes_word]

theorem link_congr {p q : Page} {i j : Nat}
    (h : p.slice (linkAt i) linkWidth = q.slice (linkAt j) linkWidth) : p.link i = q.link j :=
  link_of_slice (by rw [h, bytes_link])

/-- The bytes of the `n` links from link `i` on. -/
theorem slice_links (p : Page) (i n : Nat) :
    p.slice (linkAt i) (n * linkWidth) = ((List.range n).map fun j => p.link (i + j)).flatMap
      Link.bytes := by
  induction n with
  | zero => rfl
  | succ n ih =>
    rw [Nat.add_mul, Nat.one_mul, slice_add, ih, List.range_succ, List.map_append,
      List.flatMap_append, List.map_singleton, List.flatMap_singleton, bytes_link, linkAt_add]

/-- Links that stand one after another from link `i` on are read back. -/
theorem link_of_slice_flatMap {p : Page} {i : Nat} {ls : List Link}
    (h : p.slice (linkAt i) (ls.length * linkWidth) = ls.flatMap Link.bytes) {j : Nat}
    (hj : j < ls.length) : p.link (i + j) = ls[j] := by
  rw [slice_links] at h
  induction ls generalizing i j with
  | nil => simp at hj
  | cons l ls ih =>
    rw [List.length_cons, List.range_succ_eq_map, List.map_cons, List.flatMap_cons,
      List.flatMap_cons] at h
    obtain ⟨h₁, h₂⟩ := List.append_inj h (by simp)
    rw [bytes_link] at h₁
    cases j with
    | zero => exact link_of_slice h₁
    | succ j =>
      rw [List.getElem_cons_succ, show i + (j + 1) = (i + 1) + j by omega]
      apply ih
      rw [List.map_map] at h₂
      rw [← h₂]
      congr 1
      apply List.map_congr_left
      intro k _
      simp only [Function.comp_apply]
      congr 1
      omega

/-- What a page reads as if it has these links. -/
theorem links_of_slice {q : Page} {ls : List Link} (hcount : q.count = ls.length)
    (h : q.slice internalHeader (ls.length * linkWidth) = ls.flatMap Link.bytes) :
    q.links = ls := by
  apply List.ext_getElem (by simp [hcount])
  intro i h₁ h₂
  simp only [links, List.getElem_map, List.getElem_range]
  have := link_of_slice_flatMap (p := q) (i := 0) (by simpa [linkAt] using h) h₂
  simpa using this

@[simp] theorem link_setCount (p : Page) (n i : Nat) : (p.setCount n).link i = p.link i := by
  apply link_congr
  have := linkAt_eq i
  exact slice_overlay_of_disjoint _ (by simp; omega)

@[simp] theorem link_setRightChild (p : Page) (id : PageId) (i : Nat) :
    (p.setRightChild id).link i = p.link i := by
  apply link_congr
  have := linkAt_eq i
  exact slice_overlay_of_disjoint _ (by simp; omega)

@[simp] theorem rightChild_setRightChild (p : Page) (id : PageId) :
    (p.setRightChild id).rightChild = id := by
  rw [rightChild, setRightChild, word_setWord _ _ (by decide)]

@[simp] theorem rightChild_setCount (p : Page) (n : Nat) :
    (p.setCount n).rightChild = p.rightChild := by
  rw [rightChild, setCount, word_setWord_of_disjoint _ _ (by decide)]
  rfl

theorem rightChild_overlay (p : Page) {off : Nat} (bs : List UInt8) (h : internalHeader ≤ off) :
    (p.overlay off bs).rightChild = p.rightChild := by
  have h : 14 ≤ off := h
  rw [rightChild, word_overlay_of_disjoint _ (by omega)]
  rfl

/-- **The links and the right child of an internal node after they are replaced.** -/
theorem links_of_setLinks? {p q : Page} {ls : List Link} {right : PageId}
    (h : p.setLinks? ls right = some q) : q.links = ls ∧ q.rightChild = right := by
  unfold setLinks? at h
  split at h
  case isFalse => simp at h
  case isTrue hle =>
    simp only [Option.some.injEq] at h
    have hlen := length_flatMap_of_width Link.length_bytes ls
    refine ⟨?_, by rw [← h, rightChild_setRightChild]⟩
    apply links_of_slice
    · rw [← h, count_setRightChild, count_setCount _ (capacity_lt hle)]
    · have hright : 10 + (wordBytes right.number).length ≤ internalHeader :=
        Nat.le_of_eq (congrArg (10 + ·) (length_wordBytes right.number))
      have hcount : 6 + (wordBytes (UInt32.ofNat ls.length)).length ≤ internalHeader := by
        rw [length_wordBytes]
        decide
      rw [← h, setRightChild, setWord, slice_overlay_of_disjoint _ (.inr hright), setCount, setWord,
        slice_overlay_of_disjoint _ (.inr hcount), ← hlen]
      exact slice_overlay _ (by rw [hlen]; exact links_within hle)

/-- The separators of an internal node after its links are replaced. -/
theorem separators_of_setLinks? {p q : Page} {ls : List Link} {right : PageId}
    (h : p.setLinks? ls right = some q) : q.separators = ls.map Link.key := by
  rw [← map_key_links, (links_of_setLinks? h).1]

/-- The children of an internal node after its links are replaced. -/
theorem children_of_setLinks? {p q : Page} {ls : List Link} {right : PageId}
    (h : p.setLinks? ls right = some q) : q.children = ls.map Link.child ++ [right] := by
  obtain ⟨h₁, h₂⟩ := links_of_setLinks? h
  rw [children_eq, h₁, h₂]

theorem link_setLink (p : Page) (l : Link) {i : Nat} (h : i < internalCapacity) :
    (p.setLink i l).link i = l := by
  apply link_of_slice
  rw [setLink, ← Link.length_bytes l]
  apply slice_overlay
  rw [Link.length_bytes]
  have h : i < 510 := h
  show 14 + i * 8 + 8 ≤ 4096
  omega

theorem link_setLink_of_ne (p : Page) (l : Link) {i j : Nat} (h : j ≠ i) :
    (p.setLink i l).link j = p.link j := by
  apply link_congr
  apply slice_overlay_of_disjoint
  rw [Link.length_bytes]
  show 14 + j * 8 + 8 ≤ 14 + i * 8 ∨ 14 + i * 8 + 8 ≤ 14 + j * 8
  omega

theorem link_shiftLinks_of_lt (p : Page) {i j : Nat} (h : j < i) :
    (p.shiftLinks i).link j = p.link j := by
  apply link_congr
  apply slice_overlay_of_disjoint
  left
  show 14 + j * 8 + 8 ≤ 14 + (i + 1) * 8
  omega

theorem link_shiftLinks_succ (p : Page) {i j : Nat} (hcount : p.count < internalCapacity)
    (hi : i ≤ j) (hj : j < p.count) : (p.shiftLinks i).link (j + 1) = p.link j := by
  apply link_congr
  have hcount : p.count < 510 := hcount
  have hnew : linkAt (j + 1) = linkAt (i + 1) + (j - i) * linkWidth := by
    rw [← linkAt_add]
    congr 1
    omega
  have hold : linkAt j = linkAt i + (j - i) * linkWidth := by
    rw [← linkAt_add]
    congr 1
    omega
  rw [shiftLinks, hnew, slice_overlay_slice, ← hold]
  · show 14 + (i + 1) * 8 + (p.count - i) * 8 ≤ 4096
    omega
  · show (j - i) * 8 + 8 ≤ (p.count - i) * 8
    omega

/-- **The links of an internal node after one is inserted.** Those from its place on move up, and
the right child stays. -/
theorem links_of_insertLink? {p q : Page} {i : Nat} {l : Link} (h : p.insertLink? i l = some q) :
    q.links = p.links.insertIdx i l ∧ q.rightChild = p.rightChild := by
  unfold insertLink? at h
  split at h
  case isFalse => simp at h
  case isTrue hle =>
    obtain ⟨hi, hlt⟩ := hle
    simp only [Option.some.injEq] at h
    have hcount : q.count = p.count + 1 := by rw [← h, count_setCount _ (capacity_lt hlt)]
    have hlen : (p.links.insertIdx i l).length = p.count + 1 := by
      rw [List.length_insertIdx_of_le_length (by simpa using hi), length_links]
    constructor
    · apply List.ext_getElem (by simp [hcount, hlen])
      intro j h₁ h₂
      have hj : j ≤ p.count := by omega
      rw [List.getElem_insertIdx]
      simp only [links, List.getElem_map, List.getElem_range, ← h, link_setCount]
      split
      · rename_i hlt'
        rw [link_setLink_of_ne _ _ (by omega), link_shiftLinks_of_lt _ hlt']
      · split
        · rename_i heq
          rw [heq, link_setLink _ _ (by omega)]
        · obtain ⟨k, rfl⟩ : ∃ k, j = k + 1 := ⟨j - 1, by omega⟩
          rw [link_setLink_of_ne _ _ (by omega), link_shiftLinks_succ _ hlt (by omega) (by omega)]
          rfl
    · rw [← h, rightChild_setCount, setLink, rightChild_overlay _ _ (internalHeader_le_linkAt _),
        shiftLinks, rightChild_overlay _ _ (internalHeader_le_linkAt _)]

/-- **The children of an internal node after one is replaced.** The separators stay. -/
theorem children_of_setChild? {p q : Page} {i : Nat} {id : PageId} (hp : p.count ≤ internalCapacity)
    (hi : i ≤ p.count) (h : p.setChild? i id = some q) :
    q.children = p.children.set i id ∧ q.separators = p.separators := by
  unfold setChild? at h
  split at h
  · rename_i hlast
    simp only [Option.some.injEq] at h
    subst h
    have hlinks : (p.setRightChild id).links = p.links := by
      simp only [links, count_setRightChild, link_setRightChild, List.map_inj_left, implies_true]
    refine ⟨?_, by rw [← map_key_links, hlinks, map_key_links]⟩
    rw [children_eq, children_eq, hlinks, rightChild_setRightChild, hlast]
    rw [List.set_append_right _ _ (by simp)]
    simp
  · rename_i hlast
    rw [setWord?, if_pos (link_within (by omega)).1] at h
    simp only [Option.some.injEq] at h
    have hcount : q.count = p.count := by
      rw [← h, setWord, count_overlay]
      exact Nat.le_trans (by decide) (Nat.le_add_right internalHeader _)
    constructor
    · apply List.ext_getElem (by simp [hcount])
      intro j h₁ h₂
      simp only [children, List.getElem_map, List.getElem_range, List.getElem_set, child, hcount]
      by_cases hj : i = j
      · subst hj
        rw [if_neg hlast, if_pos rfl, ← h]
        simp only [link]
        rw [word_setWord _ _ (link_within (by omega)).1]
      · rw [if_neg hj]
        split
        · rw [← h, setWord, rightChild_overlay _ _ (internalHeader_le_linkAt _)]
        · simp only [link]
          rw [← h, word_setWord_of_disjoint]
          rw [linkAt_eq, linkAt_eq]
          omega
    · apply List.ext_getElem (by simp [hcount])
      intro j h₁ h₂
      simp only [separators, List.getElem_map, List.getElem_range, separator]
      rw [← h, word_setWord_of_disjoint]
      rw [linkAt_eq, linkAt_eq]
      omega

end Page

end PagedTable
