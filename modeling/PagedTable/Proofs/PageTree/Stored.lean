import PagedTable.Proofs.PageTree.Held
import PagedTable.Proofs.PageTree.Spot
import PagedTable.Proofs.Pager.Faithful

/-!
# Every tree can be stored

A tree in order that stands on different pages, with nodes that fit a page, is the tree of some
pager. So what is said of all trees that a pager holds is said of all of these.

* `Pager.exists_written`: pages can be filled as one likes.
* `PageTree.exists_pages`: the pages of a tree, whatever the others are.
* `PageTree.exists_rooted`: the pager with these pages. `PageTree.threeLeaves`: a small tree that is
  crowded if nodes have the least capacities.
-/

namespace PagedTable

open PagedTable.Action Pager

variable {root id : PageId} {f : Fill} {top : Bool} {T : PageTree} {kids : List PageTree}

/-- **Pages can be filled as one likes.** As many are in use then as the last of them needs. -/
theorem Pager.exists_written (page : PageId → Page) {ids : List PageId}
    (hids : ∀ id ∈ ids, id.index < maxPages) :
    ∃ s : Pager, s.Undisturbed ∧
      (∀ id ∈ ids, s.view id = some { page := page id, dirty := true }) ∧
      ∀ n, s.count ≤ n ↔ ∀ id ∈ ids, id.index < n := by
  induction ids with
  | nil =>
    have hopen : ofFile defaultPath #[] =
        .ok (holding { path := defaultPath, bytes := #[], pages := 0 } 0 #[]) := rfl
    exact ⟨_, .opened (by decide) hopen, by simp, fun n => by simp [holding]⟩
  | cons id ids ih =>
    rw [List.forall_mem_cons] at hids
    obtain ⟨s, hs, hview, hcount⟩ := ih hids.2
    obtain ⟨d, hv⟩ := hs.faithful.view_eq hids.1
    have hedit : (edit id (fun _ => some (page id)) s).2 = s.wrote id (page id) :=
      congrArg Prod.snd (edit_run (g := fun _ => some (page id)) hv rfl)
    refine ⟨_, hs.edited id fun _ => some (page id), fun j hj => ?_, fun n => ?_⟩
    · rw [hedit, view_wrote hv]
      by_cases hji : j = id
      · rw [hji, Function.update_self]
      · rw [Function.update_of_ne hji]
        exact hview j ((List.mem_cons.mp hj).resolve_left hji)
    · rw [hedit, count_wrote, Nat.max_le, hcount, List.forall_mem_cons, Nat.succ_le_iff]
      exact And.comm

/-- A page that says of its node where it stands. -/
theorem Page.exists_placed (kind : NodeKind) (root : PageId) (up : Option PageId) (id : PageId) :
    ∃ p : Page, p.tag = kind.tag ∧ p.Placed root up id := by
  refine ⟨((Page.empty kind).setRoot (decide (id = root))).setParent (up.getD id), ?_, ?_, ?_⟩
  · rw [tag_setParent, tag_setRoot, tag_empty]
  · rw [isRoot_setParent, isRoot_setRoot]
  · rintro q rfl
    rw [parent_setParent, Option.getD_some]

namespace PageTree

/-- Pages show a tree, whatever the other pages are. -/
def ShownBy (root : PageId) (up : Option PageId) (T : PageTree) (page : PageId → Page) : Prop :=
  ∀ m : View, (∀ id ∈ T.pages, m id = some { page := page id, dirty := true }) → Held m root up T

theorem ShownBy.congr {up : Option PageId} {page page' : PageId → Page} (h : T.ShownBy root up page)
    (heq : ∀ id ∈ T.pages, page' id = page id) : T.ShownBy root up page' :=
  fun m hm => h m fun id hid => by rw [hm id hid, heq id hid]

/-- Pages for every subtree of a branch, since they share none. -/
theorem exists_kids_pages {up : Option PageId} (hnd : (kids.flatMap pages).Nodup)
    (h : ∀ k ∈ kids, ∃ page, k.ShownBy root up page) :
    ∃ page, ∀ k ∈ kids, k.ShownBy root up page := by
  induction kids with
  | nil => exact ⟨fun _ => Page.zero, by simp⟩
  | cons k kids ih =>
    rw [List.flatMap_cons, List.nodup_append] at hnd
    rw [List.forall_mem_cons] at h
    obtain ⟨-, hnd, hdisj⟩ := hnd
    obtain ⟨first, hfirst⟩ := h.1
    obtain ⟨rest, hrest⟩ := ih hnd h.2
    refine ⟨fun id => if id ∈ k.pages then first id else rest id,
      List.forall_mem_cons.mpr ⟨hfirst.congr fun id hid => if_pos hid, fun j hj => ?_⟩⟩
    refine (hrest j hj).congr fun id hid => if_neg fun hmem => ?_
    exact hdisj id hmem id (List.mem_flatMap.mpr ⟨j, hj, hid⟩) rfl

/-- The page of a branch: its separators are the greatest keys of the subtrees that have one. -/
theorem exists_branch_page (root : PageId) (up : Option PageId) (id : PageId)
    (hkids : (branch id kids).Within .loose top) :
    ∃ q : Page, q.tag = NodeKind.internal.tag ∧ q.count ≤ internalCapacity ∧ q.Placed root up id ∧
      q.children = kids.map PageTree.id ∧ q.separators.map some = kids.dropLast.map greatest? := by
  obtain ⟨⟨hlo, hhi⟩, hw⟩ := within_branch.mp hkids
  have htwo := two_le_kids hlo
  have hcap : kids.length ≤ internalCapacity + 1 := hhi
  let seps : List Key := kids.dropLast.map fun k => k.greatest?.getD 0
  have hseps : seps.map some = kids.dropLast.map greatest? := by
    rw [List.map_map]
    refine List.map_congr_left fun k hk => ?_
    obtain ⟨g, hg⟩ := Option.isSome_iff_exists.mp
      (greatest?_isSome (hw k (List.dropLast_subset _ hk)).cells_ne_nil)
    rw [Function.comp_apply, hg, Option.getD_some]
  have hlen : seps.length = kids.length - 1 := by rw [List.length_map, List.length_dropLast]
  obtain ⟨p, htag, hplaced⟩ := Page.exists_placed .internal root up id
  have hne : kids.map PageTree.id ≠ [] := by
    rw [ne_eq, List.map_eq_nil_iff]
    rintro rfl
    exact absurd htwo (by decide)
  have hkeys : (kids.map PageTree.id).length ≤ seps.length + 1 := by
    rw [List.length_map]
    omega
  obtain ⟨q, -, hheader, hchildren, hq⟩ :=
    Page.setLinks?_zip p id hne hkeys (by rwa [List.length_map])
  rw [List.length_map, ← hlen, List.take_length] at hq
  have hcount := Page.count_of_children hchildren
  exact ⟨q, (Page.header_eq_iff.mp hheader).1.trans htag, by omega, hplaced.of_header hheader,
    hchildren, hq ▸ hseps⟩

/-- **The pages of a tree.** -/
theorem exists_pages (root : PageId) (up : Option PageId) (hw : T.Within .loose top)
    (hnd : T.pages.Nodup) : ∃ page, T.ShownBy root up page := by
  induction T generalizing up top with
  | leaf id cells =>
    obtain ⟨p, htag, hplaced⟩ := Page.exists_placed .leaf root up id
    have hcap : cells.length ≤ leafCapacity := (within_leaf.mp hw).2
    obtain ⟨q, -, hheader, hcells⟩ := Page.setCells?_of_le p hcap
    refine ⟨fun _ => q, fun m hm => .leaf (View.node?_eq_some_iff.mpr ⟨⟨true, ?_⟩, ?_, ?_⟩)
      (hplaced.of_header hheader) hcells⟩
    · exact hm id (by simp)
    · exact (Page.header_eq_iff.mp hheader).1.trans htag
    · show q.count ≤ leafCapacity
      rwa [← Page.length_cells, hcells]
  | branch id kids ih =>
    obtain ⟨q, htag, hcap, hplaced, hchildren, hseps⟩ := exists_branch_page root up id hw
    rw [pages_branch, List.nodup_cons] at hnd
    have hkid : ∀ k ∈ kids, k.pages.Nodup := (List.nodup_flatMap.mp hnd.2).1
    obtain ⟨page, hpage⟩ := exists_kids_pages hnd.2 fun k hk =>
      ih k hk (some id) ((within_branch.mp hw).2 k hk) (hkid k hk)
    refine ⟨Function.update page id q, fun m hm => ?_⟩
    rw [pages_branch, List.forall_mem_cons, Function.update_self] at hm
    refine .branch (View.node?_eq_some_iff.mpr ⟨⟨true, hm.1⟩, htag, hcap⟩) hplaced hchildren hseps
      fun k hk => (hpage k hk).congr (fun j hj => Function.update_of_ne ?_ _ _) m fun j hj =>
        hm.2 j (List.mem_flatMap.mpr ⟨k, hk, hj⟩)
    rintro rfl
    exact hnd.1 (List.mem_flatMap.mpr ⟨k, hk, hj⟩)

/-- **Every tree can be stored**: one in order and within bounds, on different pages within the
limit. -/
theorem exists_rooted (hw : T.Within f true) (hloose : T.Within .loose true)
    (hs : T.keys.Pairwise (· < ·)) (hnd : T.pages.Nodup)
    (hpages : ∀ id ∈ T.pages, id.index < maxPages) :
    ∃ s : Pager, s.Undisturbed ∧ Rooted s.view T.id f T ∧
      ∀ n, s.count ≤ n ↔ ∀ id ∈ T.pages, id.index < n := by
  obtain ⟨page, hpage⟩ := exists_pages T.id none hloose hnd
  obtain ⟨s, hund, hview, hcount⟩ := exists_written page hpages
  exact ⟨s, hund, ⟨rfl, hpage s.view hview, hw, hs⟩, hcount⟩

/-- A root on the first page above three leaves of two cells each. -/
def threeLeaves : PageTree :=
  let cell (key : Key) : Cell := ⟨key, Vector.replicate _ 0⟩
  .branch rootPage [.leaf ⟨1⟩ [cell 1, cell 2], .leaf ⟨2⟩ [cell 3, cell 4],
    .leaf ⟨3⟩ [cell 5, cell 6]]

theorem keys_threeLeaves : threeLeaves.keys = [1, 2, 3, 4, 5, 6] := by
  simp [threeLeaves]

theorem pages_threeLeaves : threeLeaves.pages = [⟨0⟩, ⟨1⟩, ⟨2⟩, ⟨3⟩] := by
  simp [threeLeaves, rootPage]

theorem height_threeLeaves : threeLeaves.height = 2 := by
  simp [threeLeaves, height]

/-- There is room for the pages of an insert, also if it splits the root. -/
theorem room_threeLeaves {key : Key} {n : Nat} (cfg : Config) (hused : n ≤ 4)
    (sp : threeLeaves.Spot key) : n + sp.cost cfg ≤ maxPages := by
  have hcost := sp.cost_le cfg
  rw [height_threeLeaves] at hcost
  show n + _ ≤ 100
  omega

theorem leaf_of_mem_threeLeaves {cells : List Cell} (h : .leaf id cells ∈ threeLeaves.nodes) :
    .leaf id cells ∈ threeLeaves.kids ∧ cells.length = 2 := by
  simp only [threeLeaves, nodes_branch, List.flatMap_cons, List.flatMap_nil, nodes_leaf,
    List.mem_cons, List.mem_append, List.not_mem_nil, or_false, leaf.injEq, reduceCtorEq,
    false_or] at h
  rcases h with ⟨rfl, rfl⟩ | ⟨rfl, rfl⟩ | ⟨rfl, rfl⟩ <;> exact ⟨by simp [threeLeaves, kids], rfl⟩

theorem kids_of_mem_threeLeaves {kids : List PageTree} (h : .branch id kids ∈ threeLeaves.nodes) :
    kids.length = 3 := by
  simp only [threeLeaves, nodes_branch, List.flatMap_cons, List.flatMap_nil, nodes_leaf,
    List.mem_cons, List.mem_append, List.not_mem_nil, or_false, branch.injEq, reduceCtorEq] at h
  rw [h.2]
  rfl

/-- Its nodes have enough cells and children if a half of a node is no more than two cells. With
capacities of two cells and two keys they can have no more. -/
theorem exists_threeLeaves (c : Config) (hleaf : c.leafMin ≤ 2) :
    ∃ s : Pager, s.Undisturbed ∧ s.count ≤ 4 ∧ Rooted s.view rootPage c.fill threeLeaves := by
  have hkids : 3 ≤ c.internalMax + 1 := Nat.succ_le_succ c.two_le_internalMax
  have htwo : ∀ id cells, cells.length = 2 → (leaf id cells).Within c.fill false := by
    rintro id cells hlen
    rw [within_leaf, hlen]
    exact ⟨fun _ => hleaf, c.two_le_leafMax⟩
  have hw : threeLeaves.Within c.fill true := by
    rw [threeLeaves, within_branch]
    simp only [List.forall_mem_cons]
    exact ⟨⟨Nat.le_succ 2, hkids⟩, htwo _ _ rfl, htwo _ _ rfl, htwo _ _ rfl, by simp⟩
  obtain ⟨s, hs, h, hcount⟩ := exists_rooted hw hw.loosen (by rw [keys_threeLeaves]; decide)
    (by rw [pages_threeLeaves]; decide) (by rw [pages_threeLeaves]; decide)
  exact ⟨s, hs, (hcount 4).mpr (by rw [pages_threeLeaves]; decide), h⟩

end PageTree

end PagedTable
