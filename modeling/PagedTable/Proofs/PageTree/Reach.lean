import Mathlib.Data.Fintype.EquivFin
import Mathlib.Data.Fintype.Order
import PagedTable.Proofs.PageTree.Held

/-!
# Pages reached by child pointers

What the pages from a root on are, said page by page: which pages child pointers lead to, which
cells a recursive descent reads, and what makes a valid tree of them (`Tree.Valid`).

* `View.cellsBelow_eq`: where the pages unfold to a tree, the descent reads the tree's cells.
* `Rooted.linked`: apart from how full its nodes are, a whole tree is valid page by page under all
  bounds (`View.Linked`).
* `Rooted.valid`, `Tree.Valid.rooted`: a tree whose pages child pointers reach without a cycle is
  valid page by page exactly if it is a whole tree within the configured bounds.
-/

namespace PagedTable

namespace View

/-- Page `c` is among the children of internal node `id`. -/
def Child (m : View) (id c : PageId) : Prop :=
  ∃ p, m.node? id = some (.internal, p) ∧ c ∈ p.children

/-- Child pointers lead from one page to another, or the pages are the same. -/
def Reaches (m : View) : PageId → PageId → Prop := Relation.ReflTransGen m.Child

/-- Child pointers from `root` on contain no cycle. -/
def Acyclic (m : View) (root : PageId) : Prop :=
  ∀ id, m.Reaches root id → ¬ Relation.TransGen m.Child id id

/-- The cells of the leaves below `id`, read from left to right by a recursive descent through the
children, down to `depth` levels. -/
def cellsFrom (m : View) : Nat → PageId → List Cell
  | 0, _ => []
  | depth + 1, id =>
    match m.node? id with
    | some (.leaf, p) => p.cells
    | some (.internal, p) => p.children.flatMap (m.cellsFrom depth)
    | none => []

/-- The cells of the leaves below `id`, from left to right. A way down that passes more pages than
a table may hold has passed one twice, so no way without a cycle is cut short. -/
def cellsBelow (m : View) (id : PageId) : List Cell := m.cellsFrom maxPages id

/-- The keys of the leaves below `id`, from left to right. -/
def keysBelow (m : View) (id : PageId) : List Key := (m.cellsBelow id).map Cell.key

/-- Two links, or right children, of pages reached from `root` lead to one page. -/
def Shared (m : View) (root : PageId) : Prop :=
  ∃ (a b : PageId) (p q : Page) (i j : Nat) (c : PageId),
    (m.Reaches root a ∧ m.node? a = some (.internal, p) ∧ p.children[i]? = some c) ∧
    (m.Reaches root b ∧ m.node? b = some (.internal, q) ∧ q.children[j]? = some c) ∧
    (a, i) ≠ (b, j)

end View

/-- The pages that the view shows from `root` on are a tree without empty nodes, whatever else is
asked of how full nodes are. -/
structure View.Linked (m : View) (root : PageId) : Prop where
  /-- Every page reached loads: its tag is known and its count fits the page. -/
  loads : ∀ {id}, m.Reaches root id → (m.node? id).isSome
  /-- The keys of all leaves, read from left to right, are strictly increasing. -/
  ordered : (m.keysBelow root).Pairwise (· < ·)
  /-- Every separator is the greatest key below its child. -/
  separators : ∀ {id p l}, m.Reaches root id → m.node? id = some (.internal, p) → l ∈ p.links →
    IsGreatest {key | key ∈ m.keysBelow l.child} l.key
  /-- Every node that another one points to names that node as its parent. -/
  parents : ∀ {id c kind p}, m.Reaches root id → m.Child id c → m.node? c = some (kind, p) →
    p.parent = id
  /-- The root flag is set on the root page and on no other. -/
  flags : ∀ {id kind p}, m.Reaches root id → m.node? id = some (kind, p) →
    (p.isRoot = true ↔ id = root)
  /-- No node is empty. Only the root may be a leaf without cells. -/
  filled : ∀ {id kind p}, m.Reaches root id → m.node? id = some (kind, p) → p.count = 0 →
    kind = .leaf ∧ id = root

/-- The pages that the view shows from the root on are a valid tree: they are linked up rightly, and
nodes are as full as the configuration asks. -/
structure Tree.Valid (t : Tree) (m : View) : Prop extends m.Linked t.root where
  leafFill : ∀ {id p}, m.Reaches t.root id → m.node? id = some (.leaf, p) →
    (id ≠ t.root → t.config.leafMin ≤ p.count) ∧ p.count ≤ t.config.leafMax
  internalFill : ∀ {id p}, m.Reaches t.root id → m.node? id = some (.internal, p) →
    (if id = t.root then 1 else t.config.internalMin) ≤ p.count ∧ p.count ≤ t.config.internalMax

variable {m : View} {root : PageId} {up : Option PageId} {f : Fill} {T : PageTree} {id : PageId}

/-! ## Unfolding -/

theorem PageTree.mem_nodes_of_kids {k : PageTree} (hk : k ∈ T.kids) : k ∈ T.nodes := by
  cases T with
  | leaf => cases hk
  | branch => exact PageTree.mem_nodes_of_mem_kids hk

namespace Unfolds

theorem cellsFrom_eq (h : Unfolds m T) {depth : Nat} (hd : T.height ≤ depth) :
    m.cellsFrom depth T.id = T.cells := by
  induction h generalizing depth with
  | leaf hn hc =>
    obtain ⟨d, rfl⟩ := Nat.exists_eq_succ_of_ne_zero (Nat.ne_of_gt (Nat.lt_of_lt_of_le
      (PageTree.height_pos _) hd))
    simp only [View.cellsFrom, PageTree.id_leaf, hn, PageTree.cells_leaf, hc]
  | @branch id kids _ hn hc _ ih =>
    obtain ⟨d, rfl⟩ := Nat.exists_eq_succ_of_ne_zero (Nat.ne_of_gt (Nat.lt_of_lt_of_le
      (PageTree.height_pos _) hd))
    simp only [View.cellsFrom, PageTree.id_branch, hn, PageTree.cells_branch, hc]
    rw [List.flatMap_map]
    apply List.flatMap_congr
    intro k hk
    have hlt := PageTree.height_lt_of_mem_kids (i := id) hk
    exact ih k hk (by omega)

/-- A descent reads the cells of the tree that the pages unfold to. -/
theorem cellsBelow_eq {s : Pager} (h : Unfolds s.view T) : s.view.cellsBelow T.id = T.cells :=
  h.cellsFrom_eq h.height_le

theorem keysBelow_eq {s : Pager} (h : Unfolds s.view T) : s.view.keysBelow T.id = T.keys := by
  rw [View.keysBelow, h.cellsBelow_eq, PageTree.keys]

/-- The children of the top node. -/
theorem kids_of_node {p : Page} (h : Unfolds m T) (hp : m.node? T.id = some (.internal, p)) :
    p.children = T.kids.map PageTree.id := by
  cases h with
  | leaf hn =>
    rw [PageTree.id_leaf, hn] at hp
    cases hp
  | branch hn hc =>
    rw [PageTree.id_branch, hn] at hp
    cases hp
    exact hc

/-- Child pointers lead to pages of nodes of the tree. -/
theorem exists_of_reaches (h : Unfolds m T) (hr : m.Reaches T.id id) :
    ∃ u ∈ T.nodes, u.id = id := by
  induction hr with
  | refl => exact ⟨T, T.self_mem_nodes, rfl⟩
  | tail _ hstep ih =>
    obtain ⟨u, hu, rfl⟩ := ih
    obtain ⟨p, hp, hc⟩ := hstep
    rw [(h.of_mem_nodes hu).kids_of_node hp] at hc
    obtain ⟨k, hk, rfl⟩ := List.mem_map.mp hc
    exact ⟨k, PageTree.mem_nodes_trans (PageTree.mem_nodes_of_kids hk) hu, rfl⟩

/-- **The pages of a tree** are those that child pointers lead to. -/
theorem reaches_iff (h : Unfolds m T) : m.Reaches T.id id ↔ id ∈ T.pages := by
  constructor
  · intro hr
    obtain ⟨u, hu, rfl⟩ := h.exists_of_reaches hr
    exact List.mem_map_of_mem hu
  · intro hid
    induction h with
    | leaf hn hc =>
      rw [PageTree.pages_leaf, List.mem_singleton] at hid
      rw [hid]
      exact .refl
    | @branch i kids p hn hc hk ih =>
      rw [PageTree.pages_branch, List.mem_cons, List.mem_flatMap] at hid
      rcases hid with rfl | ⟨k, hmem, hid⟩
      · exact .refl
      · have hchild : k.id ∈ p.children := hc ▸ List.mem_map_of_mem hmem
        exact .head ⟨p, hn, hchild⟩ (ih k hmem hid)

/-- No page of a tree is reached from itself again. -/
theorem acyclic (h : Unfolds m T) : m.Acyclic T.id := by
  intro id hr hcycle
  obtain ⟨u, hu, rfl⟩ := h.exists_of_reaches hr
  have hunf := h.of_mem_nodes hu
  obtain ⟨c, ⟨p, hp, hc⟩, hback⟩ := Relation.TransGen.head'_iff.mp hcycle
  rw [hunf.kids_of_node hp] at hc
  obtain ⟨k, hk, rfl⟩ := List.mem_map.mp hc
  obtain ⟨v, hv, hvid⟩ :=
    (hunf.of_mem_nodes (PageTree.mem_nodes_of_kids hk)).exists_of_reaches hback
  cases u with
  | leaf => cases hk
  | branch i kids =>
    refine hunf.id_notMem_kids k hk ?_
    rw [← PageTree.id_branch i kids, ← hvid]
    exact List.mem_map_of_mem hv

end Unfolds

/-- Trees for the children of a node. -/
theorem exists_kids {P : PageTree → Prop} {ids : List PageId}
    (h : ∀ id ∈ ids, ∃ k : PageTree, k.id = id ∧ P k) :
    ∃ kids : List PageTree, ids = kids.map PageTree.id ∧ ∀ k ∈ kids, P k := by
  induction ids with
  | nil => exact ⟨[], rfl, fun _ hk => by cases hk⟩
  | cons id ids ih =>
    obtain ⟨k, rfl, hk⟩ := h id List.mem_cons_self
    obtain ⟨kids, rfl, hkids⟩ := ih fun j hj => h j (List.mem_cons_of_mem _ hj)
    exact ⟨k :: kids, rfl, List.forall_mem_cons.mpr ⟨hk, hkids⟩⟩

/-- **Without a cycle pages unfold to a tree**, if all that are reached load. An argument may go
from the children of a page to the page, since only finitely many are reached. -/
theorem View.Acyclic.exists_unfolds {s : Pager} (hacyclic : s.view.Acyclic root)
    (hloads : ∀ {id}, s.view.Reaches root id → (s.view.node? id).isSome) :
    ∃ T : PageTree, T.id = root ∧ Unfolds s.view T := by
  let Reached := {id : PageId // s.view.Reaches root id}
  let Below (a b : Reached) : Prop := Relation.TransGen s.view.Child b.1 a.1
  have hfinite : Finite Reached := by
    have hlt : ∀ a : Reached, a.1.index < maxPages := by
      intro a
      obtain ⟨⟨_, _⟩, hn⟩ := Option.isSome_iff_exists.mp (hloads a.2)
      obtain ⟨⟨_, hv⟩, -⟩ := View.node?_eq_some_iff.mp hn
      exact Pager.index_lt_of_view hv
    refine Finite.of_injective (fun a => (⟨a.1.index, hlt a⟩ : Fin maxPages)) fun a b hab => ?_
    exact Subtype.ext (PageId.index_inj.mp (Fin.mk.inj hab))
  have htrans : IsTrans Reached Below := ⟨fun _ _ _ hab hbc => hbc.trans hab⟩
  have hirrefl : Std.Irrefl Below := ⟨fun a => hacyclic a.1 a.2⟩
  have hwf : WellFounded Below := Finite.wellFounded_of_trans_of_irrefl Below
  refine hwf.induction (C := fun a => ∃ T : PageTree, T.id = a.1 ∧ Unfolds s.view T)
    ⟨root, .refl⟩ fun ⟨id, hr⟩ ih => ?_
  obtain ⟨⟨kind, p⟩, hp⟩ := Option.isSome_iff_exists.mp (hloads hr)
  cases kind with
  | leaf => exact ⟨.leaf id p.cells, rfl, .leaf hp rfl⟩
  | internal =>
    have hchild : ∀ c ∈ p.children, s.view.Child id c := fun c hc => ⟨p, hp, hc⟩
    obtain ⟨kids, hc, hk⟩ := exists_kids fun c hc =>
      ih ⟨c, hr.tail (hchild c hc)⟩ (.single (hchild c hc))
    exact ⟨.branch id kids, rfl, .branch hp hc hk⟩

/-! ## From the tree to its pages -/

/-- The subtrees that have a link stand on the children of the links. -/
theorem Page.map_child_links {p : Page} {kids : List PageTree}
    (hc : p.children = kids.map PageTree.id) :
    p.links.map Link.child = kids.dropLast.map PageTree.id := by
  rw [List.map_dropLast, ← hc, Page.children_eq, List.dropLast_concat]

/-- A link and the subtree below it. -/
theorem Page.exists_of_mem_links {p : Page} {kids : List PageTree} {l : Link}
    (hc : p.children = kids.map PageTree.id)
    (hs : p.separators.map some = kids.dropLast.map PageTree.greatest?) (hl : l ∈ p.links) :
    ∃ k ∈ kids, k.id = l.child ∧ k.greatest? = some l.key := by
  have hids := Page.map_child_links hc
  rw [← Page.map_key_links, List.map_map] at hs
  obtain ⟨i, hi, rfl⟩ := List.getElem_of_mem hl
  have hi' : i < kids.dropLast.length := by
    have := congrArg List.length hids
    rw [List.length_map, List.length_map] at this
    omega
  refine ⟨kids.dropLast[i], List.dropLast_subset _ (List.getElem_mem hi'), ?_, ?_⟩
  · have := List.getElem_of_eq hids (i := i) (by simpa using hi)
    simpa using this.symm
  · have := List.getElem_of_eq hs (i := i) (by simpa using hi)
    simpa using this.symm

/-- If the key of every link is the greatest key below its child, the separators are right. -/
theorem Page.separators_of_links {p : Page} {kids : List PageTree}
    (hc : p.children = kids.map PageTree.id)
    (h : ∀ l ∈ p.links, ∀ k ∈ kids, k.id = l.child → k.greatest? = some l.key) :
    p.separators.map some = kids.dropLast.map PageTree.greatest? := by
  have hids := Page.map_child_links hc
  rw [← Page.map_key_links, List.map_map]
  have hlen := congrArg List.length hids
  rw [List.length_map, List.length_map] at hlen
  refine List.ext_getElem (by rw [List.length_map, List.length_map, hlen]) fun i h₁ h₂ => ?_
  rw [List.length_map] at h₁ h₂
  have hid := List.getElem_of_eq hids (i := i) (by rwa [List.length_map])
  rw [List.getElem_map, List.getElem_map] at hid
  rw [List.getElem_map, List.getElem_map]
  exact (h _ (List.getElem_mem h₁) _ (List.dropLast_subset _ (List.getElem_mem h₂)) hid.symm).symm

/-- The nodes below the root are as full as the bounds ask, and the root as a root has to be. -/
theorem Rooted.within_of_mem_nodes {u : PageTree} (h : Rooted m root f T) (hu : u ∈ T.nodes) :
    u.Within f (decide (u.id = root)) := by
  rcases h.within.of_mem_nodes hu with rfl | hw
  · rw [decide_eq_true h.id_eq]
    exact h.within
  · exact hw.relax

/-- A page that is reached stands at the top of a subtree. -/
theorem Rooted.exists_held (h : Rooted m root f T) (hr : m.Reaches root id) :
    ∃ u ∈ T.nodes, u.id = id ∧ ∃ up, Held m root up u := by
  rw [← h.id_eq] at hr
  obtain ⟨u, hu, hid⟩ := h.held.unfolds.exists_of_reaches hr
  exact ⟨u, hu, hid, h.held.of_mem_nodes hu⟩

/-- The cells of a leaf that is reached. -/
theorem Rooted.leaf_fits {p : Page} (h : Rooted m root f T) (hr : m.Reaches root id)
    (hp : m.node? id = some (.leaf, p)) :
    (id ≠ root → f.leafLo ≤ p.count) ∧ p.count ≤ f.leafHi := by
  obtain ⟨u, hmem, rfl, _, hu⟩ := h.exists_held hr
  have hw := h.within_of_mem_nodes hmem
  cases hu with
  | leaf hn _ hc =>
    rw [PageTree.id_leaf, hn] at hp
    cases hp
    rwa [PageTree.within_leaf, ← hc, Page.length_cells, decide_eq_false_iff_not] at hw
  | branch hn =>
    rw [PageTree.id_branch, hn] at hp
    cases hp

/-- The children of an internal node that is reached are one more than its keys. -/
theorem Rooted.internal_fits {p : Page} (h : Rooted m root f T) (hr : m.Reaches root id)
    (hp : m.node? id = some (.internal, p)) :
    (if id = root then 2 else f.kidsLo) ≤ p.count + 1 ∧ p.count + 1 ≤ f.kidsHi := by
  obtain ⟨u, hmem, rfl, _, hu⟩ := h.exists_held hr
  have hw := h.within_of_mem_nodes hmem
  cases hu with
  | leaf hn =>
    rw [PageTree.id_leaf, hn] at hp
    cases hp
  | branch hn _ hc =>
    rw [PageTree.id_branch, hn] at hp
    cases hp
    rw [PageTree.within_branch, ← Page.count_of_children hc] at hw
    simpa only [decide_eq_true_eq] using hw.1

/-- The greatest key of a subtree is the greatest one below its page. -/
theorem Rooted.isGreatest_keysBelow {s : Pager} {u : PageTree} {g : Key}
    (h : Rooted s.view root f T) (hu : u ∈ T.nodes) (hg : u.greatest? = some g) :
    IsGreatest {key | key ∈ s.view.keysBelow u.id} g := by
  rw [(h.held.unfolds.of_mem_nodes hu).keysBelow_eq]
  have hsub := PageTree.keys_sublist_of_mem_nodes hu
  exact (PageTree.isGreatest_iff (h.ordered.sublist hsub)).mpr hg

/-- **A whole tree is linked up rightly page by page**, whatever the bounds for its nodes are. -/
theorem Rooted.linked {s : Pager} (h : Rooted s.view root f T) : s.view.Linked root := by
  constructor
  case loads =>
    intro id hr
    obtain ⟨u, -, rfl, _, hu⟩ := h.exists_held hr
    exact hu.unfolds.isSome_of_mem_pages u.id_mem_pages
  case ordered =>
    rw [← h.id_eq, h.held.unfolds.keysBelow_eq]
    exact h.ordered
  case separators =>
    intro id p l hr hp hl
    obtain ⟨u, hmem, rfl, _, hu⟩ := h.exists_held hr
    obtain ⟨hc, hs, -⟩ := hu.kids_of_node hp
    obtain ⟨k, hkmem, hkid, hgreatest⟩ := Page.exists_of_mem_links hc hs hl
    rw [← hkid]
    exact h.isGreatest_keysBelow
      (PageTree.mem_nodes_trans (PageTree.mem_nodes_of_kids hkmem) hmem) hgreatest
  case parents =>
    intro id c kind p hr hchild hp
    obtain ⟨u, -, rfl, _, hu⟩ := h.exists_held hr
    obtain ⟨q, hq, hc⟩ := hchild
    obtain ⟨hch, -, hk⟩ := hu.kids_of_node hq
    rw [hch] at hc
    obtain ⟨k, hkmem, rfl⟩ := List.mem_map.mp hc
    obtain ⟨_, _, hn, hplaced⟩ := (hk k hkmem).node
    rw [hn] at hp
    cases hp
    exact hplaced.parent rfl
  case flags =>
    intro id kind p hr hp
    obtain ⟨u, -, rfl, _, hu⟩ := h.exists_held hr
    obtain ⟨_, _, hn, hplaced⟩ := hu.node
    rw [hn] at hp
    cases hp
    rw [hplaced.isRoot, decide_eq_true_iff]
  case filled =>
    intro id kind p hr hp hzero
    cases kind with
    | leaf =>
      refine ⟨rfl, by_contra fun hne => ?_⟩
      have := (h.leaf_fits hr hp).1 hne
      have := f.one_le_leafLo
      omega
    | internal =>
      have hkids : (if decide (id = root) then 2 else f.kidsLo) ≤ p.count + 1 := by
        simpa only [decide_eq_true_eq] using (h.internal_fits hr hp).1
      have := PageTree.two_le_kids hkids
      omega

/-- **A whole tree is valid page by page.** -/
theorem Rooted.valid {s : Pager} {t : Tree} (h : Rooted s.view t.root t.config.fill T) :
    t.Valid s.view where
  toLinked := h.linked
  leafFill := h.leaf_fits
  internalFill {id p} hr hp := by
    have hiff := t.config.kids_fit_iff p.count (decide (id = t.root))
    simp only [decide_eq_true_eq] at hiff
    exact hiff.mp (h.internal_fits hr hp)

/-- No page of a whole tree is shared: it names one parent, and no node holds a page twice. -/
theorem Rooted.not_shared (h : Rooted m root f T) : ¬ m.Shared root := by
  rintro ⟨a, b, p, q, i, j, c, ⟨ha, hp, hi⟩, ⟨hb, hq, hj⟩, hne⟩
  rw [← h.id_eq] at ha hb
  obtain ⟨u, hu, rfl⟩ := h.held.unfolds.exists_of_reaches ha
  obtain ⟨v, hv, rfl⟩ := h.held.unfolds.exists_of_reaches hb
  obtain ⟨_, hheldu⟩ := h.held.of_mem_nodes hu
  obtain ⟨_, hheldv⟩ := h.held.of_mem_nodes hv
  obtain ⟨hcu, -, hku⟩ := hheldu.kids_of_node hp
  obtain ⟨hcv, -, hkv⟩ := hheldv.kids_of_node hq
  rw [hcu] at hi
  rw [hcv] at hj
  obtain ⟨k, hk, rfl⟩ := List.mem_map.mp (List.mem_of_getElem? hi)
  obtain ⟨k', hk', hid⟩ := List.mem_map.mp (List.mem_of_getElem? hj)
  obtain ⟨_, r, hr, hplaced⟩ := (hku k hk).node
  obtain ⟨_, r', hr', hplaced'⟩ := (hkv k' hk').node
  rw [hid, hr] at hr'
  cases hr'
  have hsame : u.id = v.id := by rw [← hplaced.parent rfl, hplaced'.parent rfl]
  obtain rfl := hheldu.unfolds.eq_of_id hheldv.unfolds hsame
  have hnodup := PageTree.nodup_kids h.nodup hu
  have hij := (List.getElem?_inj (List.getElem?_eq_some_iff.mp hi).1 hnodup).mp (hi.trans hj.symm)
  exact hne (by rw [hij])

/-! ## From the pages to the tree -/

/-- A node that is reached, from `up` if that is a page, says rightly where it stands. -/
theorem Tree.Valid.placed {t : Tree} {up : Option PageId} {id : PageId} {kind : NodeKind} {p : Page}
    (h : t.Valid m) (hr : m.Reaches t.root id)
    (hup : ∀ q, up = some q → m.Reaches t.root q ∧ m.Child q id)
    (hp : m.node? id = some (kind, p)) : p.Placed t.root up id := by
  refine ⟨?_, fun hq => h.parents (hup _ hq).1 (hup _ hq).2 hp⟩
  rw [Bool.eq_iff_iff, decide_eq_true_iff]
  exact h.flags hr hp

/-- A subtree whose pages are valid is linked up rightly, and its nodes are full enough. -/
theorem Tree.Valid.held {s : Pager} {t : Tree} (up : Option PageId) (h : t.Valid s.view)
    (hacyclic : s.view.Acyclic t.root) (hT : Unfolds s.view T) (hr : s.view.Reaches t.root T.id)
    (hordered : T.keys.Pairwise (· < ·))
    (hup : ∀ q, up = some q → s.view.Reaches t.root q ∧ s.view.Child q T.id) :
    Held s.view t.root up T ∧ T.Within t.config.fill (decide (T.id = t.root)) := by
  induction hT generalizing up with
  | @leaf id cells p hp hc =>
    refine ⟨.leaf hp (h.placed hr hup hp) hc, ?_⟩
    rw [PageTree.within_leaf, ← hc, Page.length_cells, decide_eq_false_iff_not]
    exact h.leafFill hr hp
  | @branch id kids p hp hc hk ih =>
    have hkids : ∀ k ∈ kids, Held s.view t.root (some id) k ∧ k.Within t.config.fill false := by
      intro k hmem
      have hchild : s.view.Child id k.id := ⟨p, hp, by rw [hc]; exact List.mem_map_of_mem hmem⟩
      have hrk : s.view.Reaches t.root k.id := hr.tail hchild
      -- The root is no child: that would close a cycle.
      have hne : k.id ≠ t.root := by
        intro heq
        rw [heq] at hchild
        exact hacyclic _ .refl (.tail' hr hchild)
      have hsub :=
        PageTree.keys_sublist_of_mem_nodes (PageTree.mem_nodes_of_mem_kids (i := id) hmem)
      obtain ⟨hheld, hw⟩ := ih k hmem (some id) hrk (hordered.sublist hsub) fun q hq => by
        cases hq
        exact ⟨hr, hchild⟩
      rw [decide_eq_false hne] at hw
      exact ⟨hheld, hw⟩
    have hseps : p.separators.map some = kids.dropLast.map PageTree.greatest? := by
      refine Page.separators_of_links hc fun l hl k hmem hid => ?_
      have hsub :=
        PageTree.keys_sublist_of_mem_nodes (PageTree.mem_nodes_of_mem_kids (i := id) hmem)
      have hgreatest := h.separators hr hp hl
      rw [← hid, (hk k hmem).keysBelow_eq] at hgreatest
      exact (PageTree.isGreatest_iff (hordered.sublist hsub)).mp hgreatest
    refine ⟨.branch hp (h.placed hr hup hp) hc hseps fun k hmem => (hkids k hmem).1, ?_⟩
    rw [PageTree.within_branch, ← Page.count_of_children hc, Config.kids_fit_iff]
    simp only [decide_eq_true_eq]
    exact ⟨h.internalFill hr hp, fun k hmem => (hkids k hmem).2⟩

/-- **Pages that are valid one by one are a whole tree**, if child pointers contain no cycle. -/
theorem Tree.Valid.rooted {s : Pager} {t : Tree} (h : t.Valid s.view)
    (hacyclic : s.view.Acyclic t.root) : ∃ T, Rooted s.view t.root t.config.fill T := by
  obtain ⟨T, hid, hT⟩ := hacyclic.exists_unfolds h.loads
  have hordered := h.ordered
  rw [← hid, hT.keysBelow_eq] at hordered
  obtain ⟨hheld, hw⟩ := h.held none hacyclic hT (by rw [hid]; exact .refl) hordered
    fun q hq => by cases hq
  rw [decide_eq_true hid] at hw
  exact ⟨T, hid, hheld, hw, hordered⟩

end PagedTable
