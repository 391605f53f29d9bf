import Mathlib.Data.List.InsertIdx
import PagedTable.Node.Lemmas

/-!
# Headers and bodies of nodes

A node's page splits at byte 6. Before it stand tag, root flag and parent, its *header*; from it on
stand the count and everything counted, its *body*. A change of one leaves the other alone.

* `Page.header_overlay`: writing behind the header keeps it. Hence what `setCells?`, `setLinks?`,
  `insertCell?`, `insertLink?` and `setChild?` do to the header: nothing.
* `Page.SameBody`: pages that agree from byte 6 on are read as the same cells, children and
  separators. `setRoot` and `setParent` keep the body.
* `Page.SameButParent`: pages that agree on all other bytes. `setParent` keeps those.
* `Page.splice_child`: the link of a split child and its new right sibling, put into their parent.
-/

namespace PagedTable

/-! ## Inserting between two lists -/

theorem insertIdx_append {α : Type} (pre post : List α) (a : α) :
    (pre ++ post).insertIdx pre.length a = pre ++ a :: post := by
  induction pre with
  | nil => rfl
  | cons b pre ih => rw [List.cons_append, List.length_cons, List.insertIdx_succ_cons, ih]; rfl

/-- The first occurrence behind other elements. -/
theorem idxOf?_append_cons {α : Type} [BEq α] [LawfulBEq α] {pre : List α} {a : α} (h : a ∉ pre)
    (post : List α) : (pre ++ a :: post).idxOf? a = some pre.length := by
  induction pre with
  | nil => simp [List.idxOf?_cons]
  | cons b pre ih =>
    rw [List.mem_cons, not_or] at h
    have hb : (b == a) = false := beq_eq_false_iff_ne.mpr (Ne.symm h.1)
    rw [List.cons_append, List.idxOf?_cons, hb, ih h.2]
    rfl

theorem insertIdx_append_of_le {α : Type} {i : Nat} (pre post : List α) (a : α)
    (h : i ≤ pre.length) : (pre ++ post).insertIdx i a = pre.insertIdx i a ++ post := by
  induction pre generalizing i with
  | nil =>
    obtain rfl : i = 0 := Nat.le_zero.mp h
    rfl
  | cons b pre ih =>
    cases i with
    | zero => rfl
    | succ i =>
      rw [List.cons_append, List.insertIdx_succ_cons, List.insertIdx_succ_cons,
        ih (by simpa using h), List.cons_append]

namespace Page

variable {p q : Page}

/-! ## Headers -/

/-- The tag, the root flag and the parent. -/
def header (p : Page) : UInt8 × Bool × PageId := (p.tag, p.isRoot, p.parent)

theorem header_eq_iff :
    q.header = p.header ↔ q.tag = p.tag ∧ q.isRoot = p.isRoot ∧ q.parent = p.parent := by
  simp [header]

theorem header_overlay (p : Page) {off : Nat} (bs : List UInt8) (h : 6 ≤ off) :
    (p.overlay off bs).header = p.header := by
  have hb : ∀ i, i < 6 → (p.overlay off bs).byte i = p.byte i := fun i hi =>
    byte_overlay_of_disjoint p (.inl (by omega))
  rw [header_eq_iff]
  refine ⟨hb 0 (by omega), ?_, ?_⟩
  · unfold isRoot
    rw [hb 1 (by omega)]
  · unfold parent
    rw [word_overlay_of_disjoint p (.inl (by omega))]

theorem header_setCount (p : Page) (n : Nat) : (p.setCount n).header = p.header :=
  header_overlay p _ (by omega)

theorem header_setRightChild (p : Page) (id : PageId) : (p.setRightChild id).header = p.header :=
  header_overlay p _ (by omega)

theorem six_le_cellAt (i : Nat) : 6 ≤ cellAt i := by
  rw [cellAt_eq]
  omega

theorem six_le_linkAt (i : Nat) : 6 ≤ linkAt i := by
  rw [linkAt_eq]
  omega

theorem header_insertCell? {i : Nat} {c : Cell} (h : p.insertCell? i c = some q) :
    q.header = p.header := by
  unfold insertCell? at h
  split at h
  case isFalse => cases h
  case isTrue =>
    obtain rfl := Option.some.inj h
    rw [header_setCount, setCell, header_overlay _ _ (six_le_cellAt _), shiftCells,
      header_overlay _ _ (six_le_cellAt _)]

theorem header_setCells? {cs : List Cell} (h : p.setCells? cs = some q) :
    q.header = p.header := by
  unfold setCells? at h
  split at h
  case isFalse => cases h
  case isTrue =>
    obtain rfl := Option.some.inj h
    rw [header_setCount, header_overlay _ _ (by decide)]

theorem header_setLinks? {ls : List Link} {right : PageId} (h : p.setLinks? ls right = some q) :
    q.header = p.header := by
  unfold setLinks? at h
  split at h
  case isFalse => cases h
  case isTrue =>
    obtain rfl := Option.some.inj h
    rw [header_setRightChild, header_setCount, header_overlay _ _ (by decide)]

theorem header_insertLink? {i : Nat} {l : Link} (h : p.insertLink? i l = some q) :
    q.header = p.header := by
  unfold insertLink? at h
  split at h
  case isFalse => cases h
  case isTrue =>
    obtain rfl := Option.some.inj h
    rw [header_setCount, setLink, header_overlay _ _ (six_le_linkAt _), shiftLinks,
      header_overlay _ _ (six_le_linkAt _)]

theorem header_setChild? {i : Nat} {id : PageId} (h : p.setChild? i id = some q) :
    q.header = p.header := by
  unfold setChild? at h
  split at h
  · obtain rfl := Option.some.inj h
    exact header_setRightChild p id
  · unfold setWord? at h
    split at h
    · obtain rfl := Option.some.inj h
      exact header_overlay p _ (six_le_linkAt i)
    · cases h

theorem header_setParent (p : Page) (id : PageId) :
    (p.setParent id).header = (p.tag, p.isRoot, id) := by
  have hb : ∀ i, i < 2 → (p.setParent id).byte i = p.byte i := fun i hi =>
    byte_overlay_of_disjoint p (.inl hi)
  have htag : (p.setParent id).tag = p.tag := hb 0 (by omega)
  have hroot : (p.setParent id).isRoot = p.isRoot := by
    unfold isRoot
    rw [hb 1 (by omega)]
  rw [header, parent_setParent, htag, hroot]

theorem header_setRoot (p : Page) (root : Bool) :
    (p.setRoot root).header = (p.tag, root, p.parent) := by
  have hparent : (p.setRoot root).word 2 = p.word 2 := by
    apply word_congr
    apply slice_congr
    intro i _
    rw [setRoot, byte_setIfInBounds, if_neg (by omega)]
  rw [header, isRoot_setRoot, tag_setRoot, parent, hparent, parent]

/-- Behind the tag an empty node has zero bytes. -/
theorem byte_empty (kind : NodeKind) {i : Nat} (hi : i ≠ 0) : (empty kind).byte i = 0 := by
  rw [empty, byte_setIfInBounds, if_neg (by omega), byte_zero]

theorem word_empty (kind : NodeKind) {off : Nat} (h : off ≠ 0) : (empty kind).word off = 0 := by
  unfold word
  rw [byte_empty _ h, byte_empty _ (by omega), byte_empty _ (by omega), byte_empty _ (by omega)]
  rfl

theorem tag_empty (kind : NodeKind) : (empty kind).tag = kind.tag := by
  rw [tag, empty, byte_setIfInBounds, if_pos ⟨rfl, by decide⟩]

theorem isRoot_empty (kind : NodeKind) : (empty kind).isRoot = false := by
  rw [isRoot, byte_empty _ (by omega)]
  rfl

theorem count_empty (kind : NodeKind) : (empty kind).count = 0 := by
  rw [count, word_empty _ (by omega)]
  rfl

@[simp] theorem tag_setParent (p : Page) (id : PageId) : (p.setParent id).tag = p.tag :=
  congrArg Prod.fst (header_setParent p id)

@[simp] theorem isRoot_setParent (p : Page) (id : PageId) : (p.setParent id).isRoot = p.isRoot :=
  congrArg (fun h => h.2.1) (header_setParent p id)

@[simp] theorem parent_setRoot (p : Page) (root : Bool) : (p.setRoot root).parent = p.parent :=
  congrArg (fun h => h.2.2) (header_setRoot p root)

/-! ## Bodies -/

/-- The pages agree on the count and all that is counted. -/
def SameBody (q p : Page) : Prop := ∀ i, 6 ≤ i → q.byte i = p.byte i

theorem SameBody.word (h : q.SameBody p) {off : Nat} (ho : 6 ≤ off) : q.word off = p.word off :=
  word_congr (slice_congr fun _ _ => h _ (by omega))

theorem SameBody.count (h : q.SameBody p) : q.count = p.count := by
  unfold Page.count
  rw [h.word (by omega)]

theorem SameBody.cell (h : q.SameBody p) (i : Nat) : q.cell i = p.cell i := by
  have hi := six_le_cellAt i
  exact cell_congr (slice_congr fun _ _ => h _ (by omega))

theorem SameBody.cells (h : q.SameBody p) : q.cells = p.cells := by
  unfold Page.cells
  rw [h.count]
  exact List.map_congr_left fun i _ => h.cell i

theorem SameBody.links (h : q.SameBody p) : q.links = p.links := by
  unfold Page.links
  rw [h.count]
  apply List.map_congr_left
  intro i _
  have hi := six_le_linkAt i
  exact link_congr (slice_congr fun _ _ => h _ (by omega))

theorem SameBody.separators (h : q.SameBody p) : q.separators = p.separators := by
  rw [← map_key_links, ← map_key_links, h.links]

theorem SameBody.children (h : q.SameBody p) : q.children = p.children := by
  rw [children_eq, children_eq, h.links]
  unfold rightChild
  rw [h.word (by omega)]

theorem SameBody.trans {r : Page} (h : r.SameBody q) (h' : q.SameBody p) : r.SameBody p :=
  fun i hi => (h i hi).trans (h' i hi)

theorem sameBody_setParent (p : Page) (id : PageId) : (p.setParent id).SameBody p :=
  fun _ hi => byte_overlay_of_disjoint p (.inr hi)

theorem sameBody_setRoot (p : Page) (root : Bool) : (p.setRoot root).SameBody p := by
  intro i hi
  rw [setRoot, byte_setIfInBounds, if_neg (by omega)]

/-! ## Parents -/

/-- The pages agree but for the parent that they name. -/
def SameButParent (q p : Page) : Prop := ∀ i, i < 2 ∨ 6 ≤ i → q.byte i = p.byte i

namespace SameButParent

theorem refl (p : Page) : p.SameButParent p := fun _ _ => rfl

theorem trans {r : Page} (h : r.SameButParent q) (h' : q.SameButParent p) : r.SameButParent p :=
  fun i hi => (h i hi).trans (h' i hi)

theorem setParent (p : Page) (id : PageId) : (p.setParent id).SameButParent p :=
  fun _ hi => byte_overlay_of_disjoint p hi

theorem sameBody (h : q.SameButParent p) : q.SameBody p := fun i hi => h i (.inr hi)

theorem tag (h : q.SameButParent p) : q.tag = p.tag := h 0 (.inl (by decide))

end SameButParent

/-! ## Cells that there is room for -/

theorem setCells?_of_le {cs : List Cell} (p : Page) (h : cs.length ≤ leafCapacity) :
    ∃ q, p.setCells? cs = some q ∧ q.header = p.header ∧ q.cells = cs := by
  obtain ⟨q, hq⟩ : ∃ q, p.setCells? cs = some q := ⟨_, if_pos h⟩
  exact ⟨q, hq, header_setCells? hq, cells_of_setCells? hq⟩

theorem insertCell?_of_lt {i : Nat} (c : Cell) (hi : i ≤ p.count) (h : p.count < leafCapacity) :
    ∃ q, p.insertCell? i c = some q ∧ q.header = p.header ∧ q.cells = p.cells.insertIdx i c := by
  obtain ⟨q, hq⟩ : ∃ q, p.insertCell? i c = some q := ⟨_, if_pos ⟨hi, h⟩⟩
  exact ⟨q, hq, header_insertCell? hq, cells_of_insertCell? hq⟩

/-! ## A child that was split -/

/-- **A split child and its parent.** A new link for the child is put before the old one, which is
made to lead to `right`: then `right` stands behind the child, and `key` between them. -/
theorem splice_child {pre post : List PageId} {i : Nat} {left : PageId} (right : PageId) (key : Key)
    (hcount : p.count < internalCapacity) (hp : p.children = pre ++ left :: post)
    (hi : pre.length = i) :
    ∃ q, ((p.insertLink? i ⟨left, key⟩).bind fun p => p.setChild? (i + 1) right) = some q ∧
      q.header = p.header ∧ q.children = pre ++ left :: right :: post ∧
      q.separators = p.separators.insertIdx i key := by
  subst hi
  have hle : pre.length ≤ p.count := by
    have := congrArg List.length hp
    simp at this
    omega
  obtain ⟨r, hr⟩ : ∃ r, p.insertLink? pre.length ⟨left, key⟩ = some r := ⟨_, if_pos ⟨hle, hcount⟩⟩
  obtain ⟨hlinks, hright⟩ := links_of_insertLink? hr
  have hrcount : r.count = p.count + 1 := by
    rw [← length_links, hlinks, List.length_insertIdx_of_le_length (by simpa using hle),
      length_links]
  obtain ⟨q, hq⟩ : ∃ q, r.setChild? (pre.length + 1) right = some q := by
    unfold setChild?
    split
    · exact ⟨_, rfl⟩
    · exact ⟨_, if_pos (link_within (by omega)).1⟩
  obtain ⟨hchildren, hseps⟩ := children_of_setChild? (by omega) (by omega) hq
  refine ⟨q, by rw [hr]; exact hq, ?_, ?_, ?_⟩
  · rw [header_setChild? hq, header_insertLink? hr]
  · -- The new link repeats the child, and its second occurrence becomes `right`.
    have hrchildren : r.children = pre ++ left :: left :: post := by
      have hp' := hp
      rw [children_eq] at hp'
      rw [children_eq, hlinks, hright, List.map_insertIdx,
        ← insertIdx_append_of_le _ _ _ (by simpa using hle), hp', insertIdx_append]
    rw [hchildren, hrchildren]
    simp
  · rw [hseps, ← map_key_links, hlinks, List.map_insertIdx, map_key_links]

/-! ## A node written anew -/

/-- **Children and the separators between them** as the links and the right child of a node. Spare
separators are left out. -/
theorem setLinks?_zip {ids : List PageId} {keys : List Key} (p : Page) (d : PageId)
    (hne : ids ≠ []) (hkeys : ids.length ≤ keys.length + 1)
    (hcap : ids.length ≤ internalCapacity + 1) :
    ∃ q, p.setLinks? (List.zipWith Link.mk ids.dropLast keys) (ids.getLastD d) = some q ∧
      q.header = p.header ∧ q.children = ids ∧ q.separators = keys.take (ids.length - 1) := by
  have hpos := List.length_pos_iff.mpr hne
  have hlen : (List.zipWith Link.mk ids.dropLast keys).length = ids.length - 1 := by
    rw [List.length_zipWith, List.length_dropLast]
    omega
  obtain ⟨q, hq⟩ : ∃ q, p.setLinks? (List.zipWith Link.mk ids.dropLast keys) (ids.getLastD d) =
      some q := ⟨_, if_pos (by omega)⟩
  refine ⟨q, hq, header_setLinks? hq, ?_, ?_⟩
  · have hchild : (List.zipWith Link.mk ids.dropLast keys).map Link.child = ids.dropLast :=
      List.ext_getElem (by rw [List.length_map, hlen, List.length_dropLast]) fun i _ _ => by simp
    have hlast : ids.getLastD d = ids.getLast hne := by
      rw [List.getLastD_eq_getLast?, List.getLast?_eq_some_getLast hne, Option.getD_some]
    rw [children_of_setLinks? hq, hchild, hlast, List.dropLast_concat_getLast]
  · rw [separators_of_setLinks? hq]
    refine List.ext_getElem ?_ fun i _ _ => by simp
    rw [List.length_map, hlen, List.length_take]
    omega

end Page

end PagedTable
