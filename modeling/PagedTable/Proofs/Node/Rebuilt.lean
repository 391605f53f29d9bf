import PagedTable.Proofs.Node.Header
import PagedTable.Proofs.Node.Search

/-!
# Nodes changed in place and nodes written anew

A cell can be put into a leaf by moving the cells behind its place, or by writing the whole list of
cells again; a split child can be hooked into its parent in two ways as well. Both ways leave the
same page, byte by byte, whatever stale bytes it held.

The pages are not compared write by write. A node is known by what it counts and by the bytes that
it does not count (`Page.ext_cells`, `Page.ext_links`), every change leaves the latter alone
(`Page.SameOutside`), and what it counts afterwards is known of both ways already.

* `Page.insertCell?_eq_setCells?`: a cell inserted, and the cells written anew.
* `Page.splice_eq_setLinks?`: a child hooked in, and the links written anew.
* `Page.inPlace_eq_rebuilt`: both, and what the nodes are read as then.
-/

namespace PagedTable.Page

variable {p q r : Page}

/-! ## Bytes that are not counted -/

/-- The pages agree before the count, and from `stop` on. -/
def SameOutside (stop : Nat) (q p : Page) : Prop := ∀ b, b < 6 ∨ stop ≤ b → q.byte b = p.byte b

theorem SameOutside.trans {stop : Nat} (h : r.SameOutside stop q) (h' : q.SameOutside stop p) :
    r.SameOutside stop p :=
  fun b hb => (h b hb).trans (h' b hb)

theorem SameOutside.symm {stop : Nat} (h : q.SameOutside stop p) : p.SameOutside stop q :=
  fun b hb => (h b hb).symm

theorem sameOutside_overlay (p : Page) {off stop : Nat} {bs : List UInt8} (hoff : 6 ≤ off)
    (hstop : off + bs.length ≤ stop) : (p.overlay off bs).SameOutside stop p :=
  fun _ hb => byte_overlay_of_disjoint p (by omega)

theorem sameOutside_setCount (p : Page) (n : Nat) {stop : Nat} (hstop : leafHeader ≤ stop) :
    (p.setCount n).SameOutside stop p :=
  sameOutside_overlay p (Nat.le_refl 6) hstop

theorem sameOutside_setRightChild (p : Page) (id : PageId) {stop : Nat}
    (hstop : internalHeader ≤ stop) : (p.setRightChild id).SameOutside stop p :=
  sameOutside_overlay p (by decide) hstop

theorem leafHeader_le_cellAt (i : Nat) : leafHeader ≤ cellAt i := Nat.le_add_right _ _

theorem leafHeader_le_linkAt (i : Nat) : leafHeader ≤ linkAt i :=
  Nat.le_trans (by decide) (internalHeader_le_linkAt i)

theorem sameOutside_insertCell? {i : Nat} {c : Cell} (h : p.insertCell? i c = some q) :
    q.SameOutside (cellAt (p.count + 1)) p := by
  unfold insertCell? at h
  split at h
  case isFalse => cases h
  case isTrue hle =>
    obtain rfl := Option.some.inj h
    refine (sameOutside_setCount _ _ (leafHeader_le_cellAt _)).trans
      ((sameOutside_overlay _ (six_le_cellAt i) ?_).trans
        (sameOutside_overlay _ (six_le_cellAt (i + 1)) ?_))
    · rw [Cell.length_bytes, cellAt_eq, cellAt_eq, show cellWidth = 68 from rfl]
      omega
    · rw [length_slice, cellAt_eq, cellAt_eq, show cellWidth = 68 from rfl]
      omega

theorem sameOutside_setCells? {cs : List Cell} (h : p.setCells? cs = some q) :
    q.SameOutside (cellAt cs.length) p := by
  unfold setCells? at h
  split at h
  case isFalse => cases h
  case isTrue =>
    obtain rfl := Option.some.inj h
    refine (sameOutside_setCount _ _ (leafHeader_le_cellAt _)).trans
      (sameOutside_overlay _ (by decide) ?_)
    rw [length_flatMap_of_width Cell.length_bytes]
    exact Nat.le_refl _

theorem sameOutside_insertLink? {i : Nat} {l : Link} (h : p.insertLink? i l = some q) :
    q.SameOutside (linkAt (p.count + 1)) p := by
  unfold insertLink? at h
  split at h
  case isFalse => cases h
  case isTrue hle =>
    obtain rfl := Option.some.inj h
    refine (sameOutside_setCount _ _ (leafHeader_le_linkAt _)).trans
      ((sameOutside_overlay _ (six_le_linkAt i) ?_).trans
        (sameOutside_overlay _ (six_le_linkAt (i + 1)) ?_))
    · rw [Link.length_bytes, linkAt_eq, linkAt_eq, show linkWidth = 8 from rfl]
      omega
    · rw [length_slice, linkAt_eq, linkAt_eq, show linkWidth = 8 from rfl]
      omega

theorem sameOutside_setChild? {i : Nat} {id : PageId} (hi : i ≤ p.count)
    (h : p.setChild? i id = some q) : q.SameOutside (linkAt p.count) p := by
  unfold setChild? at h
  split at h
  · obtain rfl := Option.some.inj h
    exact sameOutside_setRightChild p id (internalHeader_le_linkAt _)
  · unfold setWord? at h
    split at h
    case isFalse => cases h
    case isTrue hlast _ =>
      obtain rfl := Option.some.inj h
      refine sameOutside_overlay p (six_le_linkAt i) ?_
      rw [length_wordBytes, linkAt_eq, linkAt_eq]
      omega

theorem sameOutside_setLinks? {ls : List Link} {right : PageId}
    (h : p.setLinks? ls right = some q) : q.SameOutside (linkAt ls.length) p := by
  unfold setLinks? at h
  split at h
  case isFalse => cases h
  case isTrue =>
    obtain rfl := Option.some.inj h
    refine (sameOutside_setRightChild _ _ (internalHeader_le_linkAt _)).trans
      ((sameOutside_setCount _ _ (leafHeader_le_linkAt _)).trans
        (sameOutside_overlay _ (by decide) ?_))
    rw [length_flatMap_of_width Link.length_bytes]
    exact Nat.le_refl _

/-! ## Nodes that are the same page -/

/-- A byte that two equal slices cover. -/
theorem byte_eq_of_slice {off n b : Nat} (h : q.slice off n = p.slice off n) (hoff : off ≤ b)
    (hb : b < off + n) : q.byte b = p.byte b := by
  obtain ⟨i, rfl⟩ := Nat.exists_eq_add_of_le hoff
  have hi : i < n := by omega
  rw [← getD_slice q off hi, ← getD_slice p off hi, h]

theorem slice_word {off : Nat} (h : q.word off = p.word off) : q.slice off 4 = p.slice off 4 := by
  rw [← wordBytes_word, ← wordBytes_word, h]

theorem slice_count (h : q.count = p.count) : q.slice 6 4 = p.slice 6 4 :=
  slice_word (UInt32.toNat_inj.mp h)

/-- **A leaf is known** by its cells and the bytes that are not counted. -/
theorem ext_cells (hcells : q.cells = p.cells) (hrest : q.SameOutside (cellAt p.count) p) :
    q = p := by
  have hcount : q.count = p.count := by rw [← length_cells, hcells, length_cells]
  have hbody : q.slice leafHeader (p.count * cellWidth) =
      p.slice leafHeader (p.count * cellWidth) := by
    rw [← flatMap_bytes_cells, ← hcells, flatMap_bytes_cells, hcount]
  refine ext_byte fun b _ => ?_
  by_cases hout : b < 6 ∨ cellAt p.count ≤ b
  · exact hrest b hout
  · by_cases hb : b < leafHeader
    · exact byte_eq_of_slice (slice_count hcount) (by omega) hb
    · exact byte_eq_of_slice hbody (by omega) (by rw [cellAt] at hout; omega)

/-- The bytes of the links of an internal node. -/
theorem flatMap_bytes_links (p : Page) :
    p.links.flatMap Link.bytes = p.slice internalHeader (p.count * linkWidth) := by
  have h := slice_links p 0 p.count
  simp only [Nat.zero_add] at h
  rw [links, ← h]
  simp [linkAt]

/-- Children and separators say what the links and the right child are. -/
theorem links_congr (hchildren : q.children = p.children) (hseps : q.separators = p.separators) :
    q.links = p.links ∧ q.rightChild = p.rightChild := by
  have hzip := zip_separators_children q
  rw [hchildren, hseps, zip_separators_children] at hzip
  rw [children_eq, children_eq] at hchildren
  have hinj : ∀ l l' : Link, (l.key, l.child) = (l'.key, l'.child) → l = l' := by
    rintro ⟨child, key⟩ ⟨child', key'⟩ h
    cases h
    rfl
  exact ⟨((List.map_inj_right hinj).mp hzip).symm,
    List.singleton_inj.mp (List.append_inj_right' hchildren rfl)⟩

/-- **An internal node is known** by its children, its separators and the bytes that are not
counted. -/
theorem ext_links (hchildren : q.children = p.children) (hseps : q.separators = p.separators)
    (hrest : q.SameOutside (linkAt p.count) p) : q = p := by
  obtain ⟨hlinks, hright⟩ := links_congr hchildren hseps
  have hcount : q.count = p.count := by rw [← length_links, hlinks, length_links]
  have hbody : q.slice internalHeader (p.count * linkWidth) =
      p.slice internalHeader (p.count * linkWidth) := by
    rw [← flatMap_bytes_links, ← hlinks, flatMap_bytes_links, hcount]
  refine ext_byte fun b _ => ?_
  by_cases hout : b < 6 ∨ linkAt p.count ≤ b
  · exact hrest b hout
  · by_cases hb : b < leafHeader
    · exact byte_eq_of_slice (slice_count hcount) (by omega) hb
    · by_cases hb' : b < internalHeader
      · have hright : q.word leafHeader = p.word leafHeader := congrArg PageId.number hright
        exact byte_eq_of_slice (slice_word hright) (Nat.le_of_not_lt hb) hb'
      · exact byte_eq_of_slice hbody (by omega) (by rw [linkAt] at hout; omega)

/-! ## The two ways -/

/-- **A cell put into a leaf**: inserting it leaves the page that writing all cells anew leaves. -/
theorem insertCell?_eq_setCells? {i : Nat} (c : Cell) (hi : i ≤ p.count)
    (h : p.count < leafCapacity) : p.insertCell? i c = p.setCells? (p.cells.insertIdx i c) := by
  have hlen : (p.cells.insertIdx i c).length = p.count + 1 := by
    rw [List.length_insertIdx_of_le_length (by rwa [length_cells]), length_cells]
  obtain ⟨q, hq, -, hcells⟩ := insertCell?_of_lt c hi h
  have hcap : (p.cells.insertIdx i c).length ≤ leafCapacity := by omega
  obtain ⟨r, hr, -, hcells'⟩ := setCells?_of_le p hcap
  have hrest := sameOutside_setCells? hr
  rw [hlen] at hrest
  have hcount : r.count = p.count + 1 := by rw [← length_cells, hcells', hlen]
  rw [hq, hr, ext_cells (hcells.trans hcells'.symm)
    (by rw [hcount]; exact (sameOutside_insertCell? hq).trans hrest.symm)]

theorem count_of_insertLink? {i : Nat} {l : Link} (h : p.insertLink? i l = some q) :
    q.count = p.count + 1 := by
  have hi : i ≤ p.count := by
    unfold insertLink? at h
    split at h
    case isFalse => cases h
    case isTrue hle => exact hle.1
  rw [← length_links, (links_of_insertLink? h).1,
    List.length_insertIdx_of_le_length (by rwa [length_links]), length_links]

/-- The bytes that are counted neither before a child is hooked in nor after it stay. -/
theorem sameOutside_splice {i : Nat} {l : Link} {right : PageId} (hi : i ≤ p.count)
    (h : ((p.insertLink? i l).bind fun p => p.setChild? (i + 1) right) = some q) :
    q.SameOutside (linkAt (p.count + 1)) p := by
  obtain ⟨mid, hmid, hset⟩ := Option.bind_eq_some_iff.mp h
  have hcount := count_of_insertLink? hmid
  have hrest := sameOutside_setChild? (by omega) hset
  rw [hcount] at hrest
  exact hrest.trans (sameOutside_insertLink? hmid)

/-- **A split child hooked into its parent**: putting a link before the child's own one, which is
made to lead to `right`, leaves the page that writing all links anew leaves. -/
theorem splice_eq_setLinks? {pre post : List PageId} {left : PageId} (right d : PageId) (key : Key)
    (h : p.count < internalCapacity) (hp : p.children = pre ++ left :: post) :
    ((p.insertLink? pre.length ⟨left, key⟩).bind fun p => p.setChild? (pre.length + 1) right) =
      p.setLinks? (List.zipWith Link.mk (pre ++ left :: right :: post).dropLast
          (p.separators.insertIdx pre.length key))
        ((pre ++ left :: right :: post).getLastD d) := by
  have hlen := congrArg List.length hp
  rw [length_children, List.length_append, List.length_cons] at hlen
  have hids : (pre ++ left :: right :: post).length = p.count + 2 := by
    rw [List.length_append, List.length_cons, List.length_cons]
    omega
  have hkeys : (p.separators.insertIdx pre.length key).length = p.count + 1 := by
    rw [List.length_insertIdx_of_le_length (by rw [length_separators]; omega), length_separators]
  obtain ⟨q, hq, -, hchildren, hseps⟩ := splice_child right key h hp rfl
  have hne : pre ++ left :: right :: post ≠ [] := List.ne_nil_of_length_pos (by omega)
  obtain ⟨r, hr, -, hchildren', hseps'⟩ := setLinks?_zip p d hne
    (by omega : _ ≤ (p.separators.insertIdx pre.length key).length + 1) (by omega)
  rw [List.take_of_length_le (by omega)] at hseps'
  have hcount : r.count = p.count + 1 := by rw [← length_separators, hseps', hkeys]
  have hrest := sameOutside_setLinks? hr
  rw [List.length_zipWith, List.length_dropLast, hids, hkeys, Nat.add_sub_cancel (m := 1),
    Nat.min_self] at hrest
  rw [hq, hr, ext_links (hchildren.trans hchildren'.symm) (hseps.trans hseps'.symm)
    (by rw [hcount]; exact (sameOutside_splice (by omega) hq).trans hrest.symm)]

/-- A child, and those on its two sides. -/
theorem exists_children_eq {i : Nat} {left : PageId} (hp : p.count ≤ internalCapacity)
    (hi : i ≤ p.count) (h : p.child? i = some left) :
    ∃ pre post, p.children = pre ++ left :: post ∧ pre.length = i := by
  obtain rfl := Option.some.inj ((child?_eq hp hi).symm.trans h)
  have hlt : i < p.children.length := by rwa [length_children, Nat.lt_succ_iff]
  have hget : p.children[i] = p.child i := by
    simp only [children, List.getElem_map, List.getElem_range]
  refine ⟨p.children.take i, p.children.drop (i + 1), ?_, List.length_take_of_le (by omega)⟩
  rw [← hget, List.getElem_cons_drop, List.take_append_drop]

/-- **In place or anew, the node is the same.** Into a page with room for another cell a cell can be
inserted at any index up to the count: the page is the one that writing the lengthened list of cells
leaves, and is read as this list. Into a page with room for another key the new right sibling of any
child can be hooked: the page is the one that writing the lengthened lists of keys and children
leaves, and is read as these lists. The header stays. Nothing is asked of the other bytes. -/
theorem inPlace_eq_rebuilt (p : Page) :
    (∀ (i : Nat) (c : Cell), p.count < leafCapacity → i ≤ p.count →
      ∃ cells q, p.cells? = some cells ∧ p.insertCell? i c = some q ∧
        p.setCells? (cells.insertIdx i c) = some q ∧
        q.cells? = some (cells.insertIdx i c) ∧ q.header = p.header) ∧
    (∀ (i : Nat) (left right : PageId) (key : Key), p.count < internalCapacity →
      i ≤ p.count → p.child? i = some left →
      ∃ keys children q, p.separators? = some keys ∧ p.children? = some children ∧
        ((p.insertLink? i ⟨left, key⟩).bind fun p => p.setChild? (i + 1) right) = some q ∧
        p.setLinks? (List.zipWith Link.mk (children.insertIdx (i + 1) right).dropLast
          (keys.insertIdx i key)) ((children.insertIdx (i + 1) right).getLastD left) = some q ∧
        q.separators? = some (keys.insertIdx i key) ∧
        q.children? = some (children.insertIdx (i + 1) right) ∧ q.header = p.header) := by
  constructor
  · intro i c hroom hi
    obtain ⟨q, hq, hheader, hcells⟩ := insertCell?_of_lt c hi hroom
    refine ⟨p.cells, q, cells?_eq (Nat.le_of_lt hroom), hq, ?_, ?_, hheader⟩
    · rw [← insertCell?_eq_setCells? c hi hroom, hq]
    · rw [cells?_eq (count_le_of_insertCell? hq), hcells]
  · intro i left right key hroom hi hleft
    obtain ⟨pre, post, hp, rfl⟩ := exists_children_eq (Nat.le_of_lt hroom) hi hleft
    obtain ⟨q, hq, hheader, hchildren, hseps⟩ := splice_child right key hroom hp rfl
    have hcount : q.count ≤ internalCapacity := by
      rw [← length_separators, hseps,
        List.length_insertIdx_of_le_length (by rwa [length_separators]), length_separators]
      exact hroom
    have hinsert : p.children.insertIdx (pre.length + 1) right = pre ++ left :: right :: post := by
      have h := insertIdx_append (pre ++ [left]) post right
      simpa only [hp, List.length_append, List.length_singleton, List.append_assoc,
        List.singleton_append] using h
    refine ⟨p.separators, p.children, q, separators?_eq (Nat.le_of_lt hroom),
      children?_eq (Nat.le_of_lt hroom), hq, ?_, ?_, ?_, hheader⟩
    · rw [hinsert, ← splice_eq_setLinks? right left key hroom hp, hq]
    · rw [separators?_eq hcount, hseps]
    · rw [children?_eq hcount, hchildren, hinsert]

/-- A cell between two others, and the right sibling of a child between two others, on pages with
stale bytes. -/
theorem inPlace_eq_rebuilt_stale :
    let stale : Page := Vector.replicate _ 0xAB
    let cell (key : Key) : Cell := ⟨key, Vector.replicate _ 1⟩
    (∃ p q, stale.setCells? [cell 5, cell 9] = some p ∧ p.insertCell? 1 (cell 7) = some q ∧
      p.setCells? [cell 5, cell 7, cell 9] = some q ∧
      q.cells? = some [cell 5, cell 7, cell 9] ∧ q.byte 4000 = 0xAB) ∧
    ∃ p q, stale.setLinks? [⟨⟨1⟩, 3⟩, ⟨⟨2⟩, 6⟩] ⟨4⟩ = some p ∧
      ((p.insertLink? 1 ⟨⟨2⟩, 5⟩).bind fun p => p.setChild? 2 ⟨7⟩) = some q ∧
      p.setLinks? [⟨⟨1⟩, 3⟩, ⟨⟨2⟩, 5⟩, ⟨⟨7⟩, 6⟩] ⟨4⟩ = some q ∧
      q.separators? = some [3, 5, 6] ∧ q.children? = some [⟨1⟩, ⟨2⟩, ⟨7⟩, ⟨4⟩] ∧
      q.byte 4000 = 0xAB := by
  intro stale cell
  have hstale : stale.byte 4000 = 0xAB := by
    simp only [stale, byte, Vector.getElem?_replicate]
    rfl
  constructor
  · obtain ⟨p, hp, -, hcells⟩ := setCells?_of_le stale
      (by decide : [cell 5, cell 9].length ≤ leafCapacity)
    have hcount : p.count = 2 := by rw [← length_cells, hcells]; rfl
    obtain ⟨cells, q, hread, hq, hset, hread', -⟩ := (inPlace_eq_rebuilt p).1 1 (cell 7)
      (by rw [hcount]; decide) (by rw [hcount]; decide)
    rw [cells?_eq (by rw [hcount]; decide), hcells] at hread
    obtain rfl := Option.some.inj hread
    have hbyte := (sameOutside_insertCell? hq) 4000 (by rw [hcount]; decide)
    have hbyte' := (sameOutside_setCells? hp) 4000 (by decide)
    exact ⟨p, q, hp, hq, hset, hread', by rw [hbyte, hbyte', hstale]⟩
  · obtain ⟨p, hp, -, hids, hkeys⟩ := @setLinks?_zip [⟨1⟩, ⟨2⟩, ⟨4⟩] [3, 6] stale ⟨0⟩ (by simp)
      (by decide) (by decide)
    have hcount : p.count = 2 := by rw [← length_separators, hkeys]; rfl
    have hcap : p.count ≤ internalCapacity := by rw [hcount]; decide
    have hchild : p.child? 1 = some ⟨2⟩ := child?_of_getElem? hcap (by rw [hids]; rfl)
    obtain ⟨keys, children, q, hseps, hchildren, hq, hset, hseps', hchildren', -⟩ :=
      (inPlace_eq_rebuilt p).2 1 ⟨2⟩ ⟨7⟩ 5 (by rw [hcount]; decide) (by rw [hcount]; decide) hchild
    rw [separators?_eq hcap, hkeys] at hseps
    rw [children?_eq hcap, hids] at hchildren
    obtain rfl := Option.some.inj hseps
    obtain rfl := Option.some.inj hchildren
    have hbyte := (sameOutside_splice (by rw [hcount]; decide) hq) 4000 (by rw [hcount]; decide)
    have hbyte' := (sameOutside_setLinks? hp) 4000 (by decide)
    exact ⟨p, q, hp, hq, hset, hseps', hchildren', by rw [hbyte, hbyte', hstale]⟩

end PagedTable.Page
