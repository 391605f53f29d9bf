import PagedTable.Node.Write
import PagedTable.Proofs.Node.Rebuilt

/-!
# What is written to a node is read back

A page is written field by field: a new node is blanked, then the root flag, the parent and all
cells (or links) are set, each by a change of its own.

* `Page.node_run`: one write, on any page, is read as the same write of the node.
* `Page.node_write?`: so is any sequence of writes.
* `Page.readsAs_of_node`: the accessors that check bounds read the node back.
* `Page.readsAs_of_writes`: fields written in any order to a new node, and cells replaced on a page
  that loads.
-/

namespace PagedTable

namespace Page

variable {p q : Page}

@[simp] theorem size_bodyAs (p : Page) (kind : NodeKind) : (p.bodyAs kind).size = p.count := by
  cases kind
  · exact length_cells p
  · exact length_links p

/-! ## A new node -/

/-- Writing the word that stands there changes nothing. -/
theorem setWord_word (p : Page) {off : Nat} (h : Within off 4) :
    p.setWord off (p.word off) = p := by
  refine ext_byte fun i _ => ?_
  by_cases hi : off ≤ i ∧ i < off + 4
  · exact byte_eq_of_slice (slice_word (word_setWord p _ h)) hi.1 hi.2
  · exact byte_overlay_of_disjoint p (by rw [length_wordBytes]; omega)

theorem setRoot_empty (kind : NodeKind) : (empty kind).setRoot false = empty kind := by
  refine ext_byte fun i _ => ?_
  rw [setRoot, byte_setIfInBounds]
  split
  case isTrue h =>
    rw [byte_empty kind (by omega)]
    rfl
  case isFalse => rfl

theorem setCount_empty (kind : NodeKind) : (empty kind).setCount 0 = empty kind := by
  have h := setWord_word (empty kind) (by decide : Within 6 4)
  rw [word_empty kind (by decide)] at h
  exact h

/-- **Nothing of the old page is left** on a new node. -/
theorem init_eq_empty (p : Page) (kind : NodeKind) : p.init kind = empty kind := by
  have hzero : (p.map fun _ => 0) = zero := Vector.ext fun i hi => by simp [zero]
  rw [init, hzero]
  calc ((empty kind).setRoot false).setCount 0
      = (empty kind).setCount 0 := by rw [setRoot_empty]
    _ = empty kind := setCount_empty kind

/-! ## Writes -/

theorem SameBody.bodyAs (h : q.SameBody p) (kind : NodeKind) : q.bodyAs kind = p.bodyAs kind := by
  cases kind with
  | leaf => rw [Page.bodyAs, Page.bodyAs, h.cells]
  | internal =>
    have hright : q.rightChild = p.rightChild := congrArg PageId.mk (h.word (by decide))
    rw [Page.bodyAs, Page.bodyAs, h.links, hright]

/-- **A body that there is room for** is written, on any page. It is all that the page counts then;
header and uncounted bytes stay. -/
theorem run_body {b : NodeBody} (h : b.Fits) (p : Page) :
    ∃ q, (NodeWrite.body b).run p = some q ∧ q.header = p.header ∧ q.bodyAs b.kind = b ∧
      q.SameOutside b.stop p := by
  cases b with
  | leaf cells =>
    obtain ⟨q, hq⟩ : ∃ q, p.setCells? cells = some q := ⟨_, if_pos h⟩
    exact ⟨q, hq, header_setCells? hq, congrArg _ (cells_of_setCells? hq),
      sameOutside_setCells? hq⟩
  | internal links right =>
    obtain ⟨q, hq⟩ : ∃ q, p.setLinks? links right = some q := ⟨_, if_pos h⟩
    obtain ⟨hlinks, hright⟩ := links_of_setLinks? hq
    exact ⟨q, hq, header_setLinks? hq, by rw [NodeBody.kind, bodyAs, hlinks, hright],
      sameOutside_setLinks? hq⟩

/-- **One write** of a page is the same write of the node on it, whatever the page holds. -/
theorem node_run {kind : NodeKind} {w : NodeWrite} (hw : w.FitsIn kind) (p : Page) :
    ∃ q, w.run p = some q ∧ q.tag = p.tag ∧ q.node kind = w.apply (p.node kind) := by
  cases w with
  | root flag =>
    refine ⟨_, rfl, tag_setRoot p flag, ?_⟩
    rw [node, isRoot_setRoot, parent_setRoot, (sameBody_setRoot p flag).bodyAs]
    rfl
  | parent id =>
    refine ⟨_, rfl, tag_setParent p id, ?_⟩
    rw [node, isRoot_setParent, parent_setParent, (sameBody_setParent p id).bodyAs]
    rfl
  | body b =>
    obtain ⟨rfl, hfits⟩ := hw
    obtain ⟨q, hq, hheader, hbody, -⟩ := run_body hfits p
    obtain ⟨htag, hroot, hparent⟩ := header_eq_iff.mp hheader
    refine ⟨q, hq, htag, ?_⟩
    rw [node, hroot, hparent, hbody]
    rfl

/-- **Any sequence of writes** of a page is the same sequence of writes of the node on it. -/
theorem node_write? {kind : NodeKind} {ws : List NodeWrite} (hws : ∀ w ∈ ws, w.FitsIn kind)
    (p : Page) :
    ∃ q, p.write? ws = some q ∧ q.tag = p.tag ∧
      q.node kind = ws.foldl (fun n w => w.apply n) (p.node kind) := by
  induction ws generalizing p with
  | nil => exact ⟨p, rfl, rfl, rfl⟩
  | cons w ws ih =>
    obtain ⟨hw, hws⟩ := List.forall_mem_cons.mp hws
    obtain ⟨r, hr, hrtag, hrnode⟩ := node_run hw p
    obtain ⟨q, hq, hqtag, hqnode⟩ := ih hws r
    refine ⟨q, ?_, hqtag.trans hrtag, ?_⟩
    · rw [write?, List.foldlM_cons, hr]
      exact hq
    · rw [hqnode, hrnode, List.foldl_cons]

/-! ## Reading -/

/-- The accessors read the body back. -/
def ReadsBody (p : Page) : NodeBody → Prop
  | .leaf cells => p.cells? = some cells
  | .internal links right =>
    p.separators? = some (links.map Link.key) ∧
      p.children? = some (links.map Link.child ++ [right])

/-- The page loads under any number, and the accessors read this node back. -/
structure ReadsAs (p : Page) (n : Node) : Prop where
  load : ∀ id, p.load id = .ok n.body.kind
  kind : p.kind = .ok n.body.kind
  root : p.isRoot = n.root
  parent : p.parent = n.parent
  body : p.ReadsBody n.body

theorem readsBody_bodyAs {kind : NodeKind} (h : p.count ≤ capacity kind) :
    p.ReadsBody (p.bodyAs kind) := by
  cases kind with
  | leaf => exact cells?_eq h
  | internal =>
    rw [bodyAs, ReadsBody, map_key_links, ← children_eq]
    exact ⟨separators?_eq h, children?_eq h⟩

/-- **The page of a node** whose body it has room for is read as this node. -/
theorem readsAs_of_node {n : Node} (htag : p.tag = n.body.kind.tag)
    (hnode : p.node n.body.kind = n) (hfits : n.body.Fits) : p.ReadsAs n := by
  have hbody : p.bodyAs n.body.kind = n.body := congrArg Node.body hnode
  have hcount : p.count ≤ capacity n.body.kind := by
    rw [← size_bodyAs p n.body.kind, hbody]
    exact hfits
  exact {
    load := fun _ => load_eq_ok_iff.mpr ⟨htag, hcount⟩
    kind := ofTag_eq_ok_iff.mpr htag
    root := congrArg Node.root hnode
    parent := congrArg Node.parent hnode
    body := hbody ▸ readsBody_bodyAs hcount }

/-! ## Fields in any order -/

/-- Writes of different fields commute, and writes of the same field are the same one. -/
theorem foldl_apply_of_perm {ws : List NodeWrite} {root : Bool} {parent : PageId} {b : NodeBody}
    (h : ws.Perm [.root root, .parent parent, .body b]) (n : Node) :
    ws.foldl (fun n w => w.apply n) n = ⟨root, parent, b⟩ := by
  refine (List.Perm.foldl_eq' h (fun w hw w' hw' n => ?_) n).trans rfl
  have hw := h.mem_iff.mp hw
  have hw' := h.mem_iff.mp hw'
  simp only [List.mem_cons, List.not_mem_nil, or_false] at hw hw'
  rcases hw with rfl | rfl | rfl <;> rcases hw' with rfl | rfl | rfl <;> rfl

/-- **What is written to a node is read back.** Any page can be made a new node: root flag, parent
and any cells (or links with a right child) that there is room for can be written in any order, and
then the page loads and is read as exactly these. On any page that loads the cells (or links) can be
replaced by fewer ones: the page still loads and is read as exactly these, although the bytes behind
them are still those of the cells that stood there. Tag, root flag and parent stay. -/
theorem readsAs_of_writes :
    (∀ (p : Page) (root : Bool) (parent : PageId) (b : NodeBody) (ws : List NodeWrite), b.Fits →
      ws.Perm [.root root, .parent parent, .body b] →
      ∃ q, (p.init b.kind).write? ws = some q ∧ q.ReadsAs ⟨root, parent, b⟩) ∧
    (∀ (p : Page) (id : PageId) (b : NodeBody), p.load id = .ok b.kind → b.size ≤ p.count →
      ∃ q, (NodeWrite.body b).run p = some q ∧ q.ReadsAs ⟨p.isRoot, p.parent, b⟩ ∧
        q.tag = p.tag ∧ q.SameOutside b.stop p) := by
  constructor
  · intro p root parent b ws hfits hperm
    have hws : ∀ w ∈ ws, w.FitsIn b.kind := by
      intro w hw
      have hw := hperm.mem_iff.mp hw
      simp only [List.mem_cons, List.not_mem_nil, or_false] at hw
      rcases hw with rfl | rfl | rfl
      · trivial
      · trivial
      · exact ⟨rfl, hfits⟩
    obtain ⟨q, hq, htag, hnode⟩ := node_write? hws (p.init b.kind)
    rw [foldl_apply_of_perm hperm] at hnode
    rw [init_eq_empty, tag_empty] at htag
    exact ⟨q, hq, readsAs_of_node htag hnode hfits⟩
  · intro p id b hload hsize
    obtain ⟨htag, hcount⟩ := load_eq_ok_iff.mp hload
    have hfits : b.Fits := Nat.le_trans hsize hcount
    obtain ⟨q, hq, hheader, hbody, hrest⟩ := run_body hfits p
    obtain ⟨hqtag, hroot, hparent⟩ := header_eq_iff.mp hheader
    refine ⟨q, hq, readsAs_of_node (hqtag.trans htag) ?_ hfits, hqtag, hrest⟩
    rw [node, hroot, hparent, hbody]

/-- A root with one cell, written body first on a blank page, and then emptied. -/
theorem readsAs_of_writes_leaf :
    ∃ q r, (zero.init .leaf).write?
        [.body (.leaf [⟨7, Vector.replicate rowWidth 1⟩]), .parent ⟨3⟩, .root true] = some q ∧
      q.ReadsAs ⟨true, ⟨3⟩, .leaf [⟨7, Vector.replicate rowWidth 1⟩]⟩ ∧
      (NodeWrite.body (.leaf [])).run q = some r ∧ r.ReadsAs ⟨true, ⟨3⟩, .leaf []⟩ := by
  have hperm := List.reverse_perm ([.root true, .parent ⟨3⟩,
    .body (.leaf [⟨7, Vector.replicate rowWidth 1⟩])] : List NodeWrite)
  obtain ⟨q, hq, hread⟩ := readsAs_of_writes.1 zero _ _ _ _ (by decide) hperm
  obtain ⟨r, hr, hread', -⟩ := readsAs_of_writes.2 q ⟨3⟩ (.leaf []) (hread.load _) (Nat.zero_le _)
  refine ⟨q, r, hq, hread, hr, ?_⟩
  rwa [hread.root, hread.parent] at hread'

end Page

end PagedTable
