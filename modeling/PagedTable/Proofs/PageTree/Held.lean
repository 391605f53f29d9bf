import Mathlib.Data.List.Perm.Subperm
import PagedTable.Proofs.Node.Header
import PagedTable.Proofs.PageTree.Basic
import PagedTable.Proofs.Pager.View

/-!
# Trees that a pager holds

`Unfolds m t`: where a pager shows the view `m`, following all child pointers from the top page of
`t` gives `t`.

* `Unfolds.eq_of_id`: a page unfolds to one tree. So no tree holds its own top page again further
  down.
* `Unfolds.height_le`: no way down is longer than the pages a table may hold.
* `Unfolds.nodup`: with keys in order and no empty node, no page occurs twice in a tree.

`Held m root up t` says as well that the tree is linked up rightly: every node below the top names
the node above it as its parent and `up`, if there is one, is the parent of the top, the root flag
is set on page `root` and nowhere else, and every separator is the greatest key of its subtree.

* `Held.mono`, `Held.congr`: only the pages of the tree matter.
* `Held.moved`: a top node that is copied to another page, with its subtrees adopted there.
-/

namespace PagedTable

/-- Different page numbers below `n` are no more than `n`. -/
theorem PageId.length_le_of_nodup {ids : List PageId} {n : Nat} (hnd : ids.Nodup)
    (h : ∀ id ∈ ids, id.index < n) : ids.length ≤ n := by
  have hinj : Function.Injective PageId.index := fun a b hab => PageId.index_inj.mp hab
  have hsub : ids.map PageId.index ⊆ List.range n := by
    intro i hi
    obtain ⟨id, hid, rfl⟩ := List.mem_map.mp hi
    exact List.mem_range.mpr (h id hid)
  have hle := (List.subperm_of_subset (hnd.map hinj) hsub).length_le
  rwa [List.length_map, List.length_range] at hle

/-- The pages that the view shows unfold to a tree. -/
inductive Unfolds (m : View) : PageTree → Prop where
  | leaf {id : PageId} {cells : List Cell} {p : Page}
      (node : m.node? id = some (.leaf, p)) (cells_eq : p.cells = cells) :
      Unfolds m (.leaf id cells)
  | branch {id : PageId} {kids : List PageTree} {p : Page}
      (node : m.node? id = some (.internal, p)) (children_eq : p.children = kids.map PageTree.id)
      (kids_unfold : ∀ k ∈ kids, Unfolds m k) : Unfolds m (.branch id kids)

namespace Unfolds

variable {m : View} {t t' : PageTree} {f : Fill} {top : Bool}

/-- The page of the top node. -/
theorem node (h : Unfolds m t) : ∃ kind p, m.node? t.id = some (kind, p) := by
  cases h with
  | leaf hn => exact ⟨_, _, hn⟩
  | branch hn => exact ⟨_, _, hn⟩

/-- Every subtree is unfolded. -/
theorem of_mem_nodes (h : Unfolds m t) {u : PageTree} (hu : u ∈ t.nodes) : Unfolds m u := by
  induction h with
  | leaf hn hc =>
    rw [PageTree.nodes_leaf, List.mem_singleton] at hu
    subst hu
    exact .leaf hn hc
  | branch hn hc hk ih =>
    rw [PageTree.nodes_branch, List.mem_cons, List.mem_flatMap] at hu
    rcases hu with rfl | ⟨k, hk', hu⟩
    · exact .branch hn hc hk
    · exact ih k hk' hu

/-- **A page unfolds to one tree.** -/
theorem eq_of_id (h : Unfolds m t) (h' : Unfolds m t') (hid : t.id = t'.id) :
    t = t' := by
  induction h generalizing t' with
  | leaf hn hc =>
    cases h' with
    | leaf hn' hc' =>
      cases hid
      rw [hn] at hn'
      cases hn'
      rw [← hc, ← hc']
    | branch hn' =>
      cases hid
      rw [hn] at hn'
      cases hn'
  | @branch _ kids _ hn hc _ ih =>
    cases h' with
    | leaf hn' =>
      cases hid
      rw [hn] at hn'
      cases hn'
    | @branch _ kids' _ hn' hc' hk' =>
      cases hid
      rw [hn] at hn'
      cases hn'
      have hids : kids.map PageTree.id = kids'.map PageTree.id := by rw [← hc, ← hc']
      congr 1
      have hlen : kids.length = kids'.length := by simpa using congrArg List.length hids
      apply List.ext_getElem hlen
      intro i h₁ h₂
      refine ih _ (List.getElem_mem h₁) (hk' _ (List.getElem_mem h₂)) ?_
      have := List.getElem_of_eq hids (i := i) (by simpa using h₁)
      simpa using this

/-- A page is not found again below itself. -/
theorem id_notMem_kids {id : PageId} {kids : List PageTree} (h : Unfolds m (.branch id kids)) :
    ∀ k ∈ kids, id ∉ k.pages := by
  intro k hk hid
  obtain ⟨u, hu, hui⟩ := List.mem_map.mp hid
  have hmem := PageTree.mem_nodes_trans hu (PageTree.mem_nodes_of_mem_kids (i := id) hk)
  have hunf := h.of_mem_nodes hmem
  have heq := hunf.eq_of_id h hui
  have hlt := PageTree.height_lt_of_mem_kids (i := id) hk
  have hle := PageTree.height_le_of_mem_nodes hu
  rw [heq] at hle
  omega

/-- **No page occurs twice** in a tree with keys in order and no empty node: the same cells would
occur twice. -/
theorem nodup (h : Unfolds m t) (hf : t.Within f top) (hs : t.keys.Pairwise (· < ·)) :
    t.pages.Nodup := by
  induction t generalizing top with
  | leaf id cells => simp
  | branch id kids ih =>
    have hnot := h.id_notMem_kids
    cases h with
    | branch hn hc hk =>
      rw [PageTree.within_branch] at hf
      rw [PageTree.keys_branch, List.pairwise_flatMap] at hs
      rw [PageTree.pages_branch, List.nodup_cons, List.nodup_flatMap]
      refine ⟨?_, fun k hk' => ih k hk' (hk k hk') (hf.2 k hk') (hs.1 k hk'), ?_⟩
      · intro hmem
        obtain ⟨k, hk', hid⟩ := List.mem_flatMap.mp hmem
        exact hnot k hk' hid
      · refine List.Pairwise.imp_of_mem (fun {a b} ha hb hab => ?_) hs.2
        intro x hxa hxb
        obtain ⟨u, hu, rfl⟩ := List.mem_map.mp hxa
        obtain ⟨v, hv, hvu⟩ := List.mem_map.mp hxb
        have hunfu := (hk a ha).of_mem_nodes hu
        have hunfv := (hk b hb).of_mem_nodes hv
        obtain rfl := hunfv.eq_of_id hunfu hvu
        have hne : v.cells ≠ [] := by
          rcases (hf.2 a ha).of_mem_nodes hu with rfl | hw
          · exact (hf.2 v ha).cells_ne_nil
          · exact hw.cells_ne_nil
        obtain ⟨c, hc'⟩ := List.exists_mem_of_ne_nil _ hne
        have hca := List.mem_map_of_mem (f := Cell.key)
          ((PageTree.cells_sublist_of_mem_nodes hu).subset hc')
        have hcb := List.mem_map_of_mem (f := Cell.key)
          ((PageTree.cells_sublist_of_mem_nodes hv).subset hc')
        exact UInt32.lt_irrefl _ (hab _ hca _ hcb)

/-! ## Fuel -/

/-- Every page of the tree can be fetched. -/
theorem isSome_of_mem_pages (h : Unfolds m t) {id : PageId} (hid : id ∈ t.pages) :
    (m.node? id).isSome := by
  obtain ⟨u, hu, rfl⟩ := List.mem_map.mp hid
  have hunf := h.of_mem_nodes hu
  obtain ⟨_, _, hn⟩ := hunf.node
  rw [hn]
  rfl

theorem index_lt_of_mem_pages {s : Pager} (h : Unfolds s.view t) {id : PageId}
    (hid : id ∈ t.pages) : id.index < maxPages := by
  obtain ⟨⟨_, _⟩, hn⟩ := Option.isSome_iff_exists.mp (h.isSome_of_mem_pages hid)
  obtain ⟨⟨_, hv⟩, -⟩ := View.node?_eq_some_iff.mp hn
  exact Pager.index_lt_of_view hv

/-- The pages on a longest way down. -/
theorem exists_descent (h : Unfolds m t) :
    ∃ ids : List PageId, ids.length = t.height ∧ ids.Nodup ∧ ids ⊆ t.pages := by
  induction h with
  | @leaf id =>
    exact ⟨[id], by simp, List.nodup_singleton id, by simp⟩
  | @branch id kids p hn hc hk ih =>
    by_cases hne : kids = []
    · subst hne
      exact ⟨[id], by simp [PageTree.height], List.nodup_singleton id, by simp⟩
    · obtain ⟨k, hmem, hheight⟩ := PageTree.exists_mem_kids_height (i := id) hne
      obtain ⟨ids, hlen, hnd, hsub⟩ := ih k hmem
      have hnot := (Unfolds.branch hn hc hk).id_notMem_kids k hmem
      refine ⟨id :: ids, by rw [List.length_cons, hlen, hheight],
        List.nodup_cons.mpr ⟨fun hid => hnot (hsub hid), hnd⟩, ?_⟩
      rw [PageTree.pages_branch]
      refine List.cons_subset_cons id fun j hj => ?_
      exact List.mem_flatMap.mpr ⟨k, hmem, hsub hj⟩

/-- No way down is longer than the pages a table may hold. -/
theorem height_le {s : Pager} (h : Unfolds s.view t) : t.height ≤ maxPages := by
  obtain ⟨ids, hlen, hnd, hsub⟩ := h.exists_descent
  rw [← hlen]
  exact PageId.length_le_of_nodup hnd fun _ hid => h.index_lt_of_mem_pages (hsub hid)

end Unfolds

/-! ## Trees that are linked up rightly -/

/-- A branch has one key fewer than subtrees. -/
theorem Page.count_of_children {p : Page} {kids : List PageTree}
    (hc : p.children = kids.map PageTree.id) : p.count + 1 = kids.length := by
  rw [← length_children, hc, List.length_map]

/-- The last subtree of a branch stands on the right child. The others have links, with their
greatest keys as separators. -/
theorem Page.exists_last {p : Page} {kids : List PageTree}
    (hc : p.children = kids.map PageTree.id)
    (hs : p.separators.map some = kids.dropLast.map PageTree.greatest?) :
    ∃ init r, kids = init ++ [r] ∧ p.rightChild = r.id ∧
      (p.separators.zip p.children).map Prod.snd = init.map PageTree.id ∧
      (p.separators.zip p.children).map (fun l => some l.1) = init.map PageTree.greatest? := by
  have hlen := Page.count_of_children hc
  rcases List.eq_nil_or_concat' kids with rfl | ⟨init, r, rfl⟩
  · cases hlen
  rw [children_eq, List.map_append, List.map_singleton] at hc
  obtain ⟨hids, hr⟩ := List.append_inj' hc rfl
  rw [List.dropLast_concat, ← map_key_links, List.map_map] at hs
  refine ⟨init, r, rfl, List.singleton_inj.mp hr, ?_, ?_⟩
  · rw [zip_separators_children, List.map_map]
    exact hids
  · rw [zip_separators_children, List.map_map]
    exact hs

/-- The page of node `id` says rightly where the node stands. -/
structure Page.Placed (root : PageId) (up : Option PageId) (id : PageId) (p : Page) : Prop where
  isRoot : p.isRoot = decide (id = root)
  parent : ∀ {q}, up = some q → p.parent = q

namespace Page.Placed

variable {root id new : PageId} {up : Option PageId} {kind : NodeKind} {p q : Page}

/-- Where a node stands is said in its header alone. -/
theorem of_header (h : p.Placed root up id) (hq : q.header = p.header) : q.Placed root up id := by
  obtain ⟨-, hroot, hparent⟩ := Page.header_eq_iff.mp hq
  exact ⟨hroot.trans h.isRoot, fun hup => hparent.trans (h.parent hup)⟩

/-- A new node below the parent of another one. -/
theorem of_fresh (h : p.Placed root up id) (hne : new ≠ root)
    (hq : q.header = ((Page.empty kind).setParent p.parent).header) :
    q.tag = kind.tag ∧ q.Placed root up new := by
  rw [Page.header_setParent] at hq
  have htag : q.tag = (Page.empty kind).tag := congrArg Prod.fst hq
  have hroot : q.isRoot = (Page.empty kind).isRoot := congrArg (fun h => h.2.1) hq
  have hparent : q.parent = p.parent := congrArg (fun h => h.2.2) hq
  refine ⟨htag.trans (Page.tag_empty kind), ?_, fun hup => hparent.trans (h.parent hup)⟩
  rw [hroot, Page.isRoot_empty, decide_eq_false hne]

/-- A node that is taken in below the root. -/
theorem below_root (p : Page) (hne : id ≠ root) :
    ((p.setRoot false).setParent root).Placed root (some root) id := by
  refine ⟨?_, fun hq => ?_⟩
  · rw [Page.isRoot_setParent, Page.isRoot_setRoot, decide_eq_false hne]
  · rw [Page.parent_setParent, Option.some.inj hq]

end Page.Placed

/-- The pages unfold to a tree that is linked up rightly. -/
inductive Held (m : View) (root : PageId) : Option PageId → PageTree → Prop where
  | leaf {up : Option PageId} {id : PageId} {cells : List Cell} {p : Page}
      (node : m.node? id = some (.leaf, p)) (placed : p.Placed root up id)
      (cells_eq : p.cells = cells) : Held m root up (.leaf id cells)
  | branch {up : Option PageId} {id : PageId} {kids : List PageTree} {p : Page}
      (node : m.node? id = some (.internal, p)) (placed : p.Placed root up id)
      (children_eq : p.children = kids.map PageTree.id)
      (separators_eq : p.separators.map some = kids.dropLast.map PageTree.greatest?)
      (kids_held : ∀ k ∈ kids, Held m root (some id) k) : Held m root up (.branch id kids)

namespace Held

variable {m m' : View} {root : PageId} {up up' : Option PageId} {t t' : PageTree} {f : Fill}
  {top : Bool}

/-- The page of the top node. -/
theorem node (h : Held m root up t) :
    ∃ kind p, m.node? t.id = some (kind, p) ∧ p.Placed root up t.id := by
  cases h with
  | leaf hn hp _ => exact ⟨_, _, hn, hp⟩
  | branch hn hp _ _ _ => exact ⟨_, _, hn, hp⟩

/-- The root's page says that it is the root. -/
theorem node_of_eq_root (h : Held m root up t) (hid : t.id = root) :
    ∃ kind p, m.node? t.id = some (kind, p) ∧ p.isRoot = true := by
  obtain ⟨kind, p, hn, hp⟩ := h.node
  exact ⟨kind, p, hn, by rw [hp.isRoot, decide_eq_true hid]⟩

/-- Every other page names the one above it. -/
theorem node_of_ne_root {q : PageId} (h : Held m root (some q) t) (hne : t.id ≠ root) :
    ∃ kind p, m.node? t.id = some (kind, p) ∧ ¬ p.isRoot = true ∧ p.parent = q := by
  obtain ⟨kind, p, hn, hp⟩ := h.node
  exact ⟨kind, p, hn, by simp [hp.isRoot, hne], hp.parent rfl⟩

/-- A view that shows the nodes of a tree holds it. -/
theorem mono (h : Held m root up t)
    (hm : ∀ id ∈ t.pages, ∀ x, m.node? id = some x → m'.node? id = some x) :
    Held m' root up t := by
  induction h with
  | leaf hn hp hc => exact .leaf (hm _ (by simp) _ hn) hp hc
  | branch hn hp hc hs _ ih =>
    refine .branch (hm _ (by simp) _ hn) hp hc hs fun k hk => ?_
    refine ih k hk fun id hid => hm id ?_
    rw [PageTree.pages_branch]
    exact List.mem_cons_of_mem _ (List.mem_flatMap.mpr ⟨k, hk, hid⟩)

/-- Views that agree on the pages of a tree hold it alike. -/
theorem congr (h : Held m root up t) (hm : ∀ id ∈ t.pages, m' id = m id) : Held m' root up t :=
  h.mono fun id hid x hx => by rw [View.node?_congr (hm id hid), hx]

theorem unfolds (h : Held m root up t) : Unfolds m t := by
  induction h with
  | leaf hn _ hc => exact .leaf hn hc
  | branch hn _ hc _ _ ih => exact .branch hn hc ih

/-- What an internal page says about the subtrees below it. -/
theorem kids_of_node {p : Page} (h : Held m root up t)
    (hp : m.node? t.id = some (.internal, p)) :
    p.children = t.kids.map PageTree.id ∧
      p.separators.map some = t.kids.dropLast.map PageTree.greatest? ∧
      ∀ k ∈ t.kids, Held m root (some t.id) k := by
  cases h with
  | leaf hn =>
    rw [PageTree.id_leaf, hn] at hp
    cases hp
  | branch hn _ hc hs hk =>
    rw [PageTree.id_branch, hn] at hp
    cases hp
    exact ⟨hc, hs, hk⟩

/-- Every subtree is held. -/
theorem of_mem_nodes (h : Held m root up t) {u : PageTree} (hu : u ∈ t.nodes) :
    ∃ up', Held m root up' u := by
  induction h with
  | leaf hn hp hc =>
    rw [PageTree.nodes_leaf, List.mem_singleton] at hu
    subst hu
    exact ⟨_, .leaf hn hp hc⟩
  | branch hn hp hc hs hk ih =>
    rw [PageTree.nodes_branch, List.mem_cons, List.mem_flatMap] at hu
    rcases hu with rfl | ⟨k, hk', hu⟩
    · exact ⟨_, .branch hn hp hc hs hk⟩
    · exact ih k hk' hu

/-! ## Other pages for the top node -/

/-- **A tree whose top node was copied** to page `new`, with its subtrees adopted there. What the
copy says about its own place is new as well. -/
theorem moved {new : PageId} {kind : NodeKind} {p p' : Page} {d : Bool} (h : Held m root up t)
    (hn : m.node? t.id = some (kind, p)) (hm' : m' new = some ⟨p', d⟩) (hbody : p'.SameBody p)
    (htag : p'.tag = p.tag) (hp : p'.Placed root up' new)
    (hkids : ∀ k ∈ t.kids, Held m' root (some new) k) : Held m' root up' (t.moveTo new) := by
  have hn' : m'.node? new = some (kind, p') := by
    obtain ⟨-, ht, hc⟩ := View.node?_eq_some_iff.mp hn
    exact View.node?_eq_some_iff.mpr ⟨⟨d, hm'⟩, htag.trans ht, by rwa [hbody.count]⟩
  cases h with
  | leaf hn₀ _ hc =>
    rw [PageTree.id_leaf, hn₀] at hn
    cases hn
    exact .leaf hn' hp (by rw [hbody.cells, hc])
  | branch hn₀ _ hc hs hk =>
    rw [PageTree.id_branch, hn₀] at hn
    cases hn
    exact .branch hn' hp (by rw [hbody.children, hc]) (by rw [hbody.separators, hs]) hkids

/-- A tree whose top page was rewritten in its header alone. -/
theorem retop {kind : NodeKind} {p p' : Page} {d : Bool} (h : Held m root up t)
    (hn : m.node? t.id = some (kind, p)) (hm' : m' t.id = some ⟨p', d⟩) (hbody : p'.SameBody p)
    (htag : p'.tag = p.tag) (hp : p'.Placed root up' t.id)
    (hkids : ∀ k ∈ t.kids, ∀ id ∈ k.pages, m' id = m id) : Held m' root up' t := by
  have hmove : t.moveTo t.id = t := by cases t <;> rfl
  rw [← hmove]
  refine h.moved hn hm' hbody htag hp fun k hk => ?_
  refine Held.congr ?_ (hkids k hk)
  cases h with
  | leaf => cases hk
  | branch _ _ _ _ hk' => exact hk' k hk

end Held

/-- **A whole tree**: the pages from `root` on unfold to `T`, linked up rightly, with keys in order
and nodes as full as `f` asks. -/
structure Rooted (m : View) (root : PageId) (f : Fill) (T : PageTree) : Prop where
  id_eq : T.id = root
  held : Held m root none T
  within : T.Within f true
  ordered : T.keys.Pairwise (· < ·)

namespace Rooted

variable {m m' : View} {root : PageId} {f : Fill} {T T' : PageTree}

theorem nodup (h : Rooted m root f T) : T.pages.Nodup := h.held.unfolds.nodup h.within h.ordered

theorem mono (h : Rooted m root f T)
    (hm : ∀ id ∈ T.pages, ∀ x, m.node? id = some x → m'.node? id = some x) : Rooted m' root f T :=
  ⟨h.id_eq, h.held.mono hm, h.within, h.ordered⟩

theorem loosen {c : Config} (h : Rooted m root c.fill T) : Rooted m root .loose T :=
  ⟨h.id_eq, h.held, h.within.loosen, h.ordered⟩

/-- The root is an internal node exactly if the tree has more than one page. -/
theorem root_internal_iff (h : Rooted m root f T) :
    (∃ p, m.node? root = some (.internal, p)) ↔ 2 ≤ T.pages.length := by
  obtain ⟨rfl, hheld, hwithin, -⟩ := h
  cases hheld with
  | leaf hn => simp [hn]
  | @branch _ id kids p hn =>
    have hkids := PageTree.two_le_kids (PageTree.within_branch.mp hwithin).1.1
    have hle := (PageTree.map_id_sublist kids).length_le
    rw [List.length_map] at hle
    rw [PageTree.pages_branch, List.length_cons]
    exact iff_of_true ⟨p, hn⟩ (by omega)

end Rooted

end PagedTable
