import PagedTable.Proofs.Tree.Distribution

/-!
# How far an insert reaches

An insert writes the leaf where the key belongs. If that is full it may write the nodes on the way
down to it, takes new pages, and puts children of the internal nodes that overflow below another
parent. All other pages are as they were, marks included.

* `Tree.OnPath`, `Tree.BelowOverflow`: the pages in use that an insert may write.
* `PageTree.Spot.onPath_of_mem_above`, `PageTree.Spot.belowOverflow_of_mem_moved`: the pages that
  `PageTree.Spot.Writes` speaks of are such pages.
* `insert_confined`: what an insert leaves of all pages (`Tree.Confined`).
-/

namespace PagedTable

open PagedTable.Action Pager Crumb
open PageTree (plug)

variable {m : View} {s s' : Pager} {root id leaf : PageId} {f : Fill} {t : PageTree}
  {T : Tree} {cs : List Crumb} {c : Crumb} {key : Key} {x : Cell} {k : Nat}

/-! ## Pages that may be written -/

namespace Tree

/-- Page `id` is on the way from the root down to page `leaf`. -/
def OnPath (T : Tree) (m : View) (leaf id : PageId) : Prop :=
  m.Reaches T.root id ∧ m.Reaches id leaf

/-- Page `id` is a child of an internal node that overflows when a cell is put into page `leaf`. -/
def BelowOverflow (T : Tree) (m : View) (leaf id : PageId) : Prop :=
  ∃ k node, T.Overflows m leaf (k + 1) node ∧ m.Child node id

end Tree

/-- No way leads on from a leaf. -/
theorem View.Reaches.eq_of_leaf {p : Page} (h : m.Reaches id leaf)
    (hn : m.node? id = some (.leaf, p)) : id = leaf := by
  rcases Relation.ReflTransGen.cases_head h with heq | ⟨c, ⟨q, hq, -⟩, -⟩
  · exact heq
  · cases hn.symm.trans hq

/-- One step down. -/
theorem Held.child_of_plug (h : Held m root none (plug (c :: cs) t)) : m.Child c.id t.id := by
  obtain ⟨p, hn, hchildren, -⟩ := h.node_of_plug
  exact ⟨p, hn, by simp [hchildren]⟩

/-- A step down goes past the children beside the one that is entered. -/
theorem Held.child_of_mem_beside (h : Held m root none (plug (c :: cs) t))
    (hid : id ∈ c.beside.map PageTree.id) : m.Child c.id id := by
  obtain ⟨p, hn, hchildren, -⟩ := h.node_of_plug
  rw [beside, List.map_append, List.mem_append] at hid
  refine ⟨p, hn, ?_⟩
  rw [hchildren, List.mem_append, List.mem_cons]
  tauto

/-- Every branch that the way down leaves is on it. -/
theorem reaches_of_mem_crumbs (h : Held m root none (plug cs t)) (hc : c ∈ cs) :
    m.Reaches (plug cs t).id c.id ∧ m.Reaches c.id t.id := by
  induction cs generalizing t with
  | nil => cases hc
  | cons d cs ih =>
    have hstep := h.child_of_plug
    rcases List.mem_cons.mp hc with rfl | hc
    · refine ⟨h.unfolds.reaches_iff.mpr ?_, .single hstep⟩
      exact List.mem_map_of_mem (PageTree.mem_nodes_plug cs (c.around [t]))
    · obtain ⟨hdown, hup⟩ := ih (t := d.around [t]) h hc
      exact ⟨hdown, hup.tail hstep⟩

/-- The children that splits share out are below nodes that overflow. -/
theorem belowOverflow_of_mem_shifted (h : Held m T.root none (plug cs t))
    (hroot : (plug cs t).id = T.root) (hnd : (plug cs t).pages.Nodup)
    (hover : T.Overflows m leaf k t.id) (hid : id ∈ shifted T.config cs) :
    T.BelowOverflow m leaf id := by
  induction cs generalizing t k with
  | nil => cases hid
  | cons c cs ih =>
    by_cases hwide : c.beside.length < T.config.internalMax
    · rw [shifted, if_pos hwide] at hid
      cases hid
    have hup := hover.branch h hroot hnd (Nat.le_of_not_lt hwide)
    rw [shifted, if_neg hwide, List.mem_append] at hid
    rcases hid with hid | hid
    · exact ⟨k, c.id, hup, h.child_of_mem_beside hid⟩
    · exact ih (t := c.around [t]) h hroot hnd hup hid

namespace PageTree.Spot

variable {sp : t.Spot key}

/-- The leaf of a spot is where the way down ends. -/
theorem onPath_leaf (h : Rooted m T.root f t) (sp : t.Spot key) : T.OnPath m sp.leaf sp.leaf := by
  refine ⟨?_, .refl⟩
  rw [← h.id_eq, h.held.unfolds.reaches_iff, sp.pages_perm.mem_iff]
  exact List.mem_cons_self

/-- The nodes that a new cell may change are on the way down to the spot. -/
theorem onPath_of_mem_above (h : Rooted m T.root f t) (hid : id ∈ sp.above T.config) :
    T.OnPath m sp.leaf id := by
  unfold above at hid
  split at hid
  · cases hid
  rcases List.mem_cons.mp hid with rfl | hid
  · rw [h.id_eq]
    exact ⟨.refl, (sp.onPath_leaf h).1⟩
  · obtain ⟨c, hc, rfl⟩ := List.mem_map.mp hid
    have hheld := h.held
    rw [← sp.plug_eq] at hheld
    have hreaches := reaches_of_mem_crumbs hheld hc
    rwa [sp.plug_eq, h.id_eq] at hreaches

/-- The pages that a new cell may put below another parent are the leaf and children of nodes that
overflow. -/
theorem belowOverflow_of_mem_moved {s : Pager} {sp : t.Spot key} (h : Rooted s.view T.root f t)
    (hid : id ∈ sp.moved T.config) (hne : id ≠ sp.leaf) : T.BelowOverflow s.view sp.leaf id := by
  unfold moved at hid
  split at hid
  · cases hid
  · rename_i hfull
    obtain ⟨p, hn, -, -, hcount⟩ := sp.node h.held
    obtain ⟨hplug, hroot, hnd, -⟩ := sp.opened h
    exact belowOverflow_of_mem_shifted hplug hroot hnd
      (.leaf hn (hcount ▸ Nat.le_of_not_lt hfull)) ((List.mem_cons.mp hid).resolve_left hne)

end PageTree.Spot

/-! ## Inserts -/

/-- A leaf is another page once it holds one more cell. -/
theorem Page.ne_of_insertCell? {p q : Page} {i : Nat} (hi : i ≤ p.count)
    (hroom : p.count < leafCapacity) (h : p.insertCell? i x = some q) : q ≠ p := by
  obtain ⟨q', hq', -, hcells⟩ := Page.insertCell?_of_lt x hi hroom
  cases h.symm.trans hq'
  rintro rfl
  have hlen := congrArg List.length hcells
  rw [List.length_insertIdx_of_le_length (by rwa [Page.length_cells])] at hlen
  omega

namespace Tree

/-- What an insert into page `leaf`, which held `p`, leaves of all pages. -/
structure Confined (T : Tree) (s s' : Pager) (leaf : PageId) (p : Page) : Prop where
  /-- A page that is not on the way down, not new and not a child of an internal node that
  overflows is as it was, and so is its mark. -/
  same : ∀ {id}, ¬ T.OnPath s.view leaf id → ¬ (s.count ≤ id.index ∧ id.index < s'.count) →
    ¬ T.BelowOverflow s.view leaf id → s.SamePage s' id
  /-- Of a page that is only such a child at most the bytes that name its parent change. -/
  child : ∀ {id f}, ¬ T.OnPath s.view leaf id → ¬ (s.count ≤ id.index ∧ id.index < s'.count) →
    s.view id = some f → ∃ f', s'.view id = some f' ∧ f'.page.SameButParent f.page
  /-- A leaf with room is changed and marked, and is the only page that is. -/
  room : p.count < T.config.leafMax → s'.count = s.count ∧
    (∀ {id}, id ≠ leaf → s.SamePage s' id) ∧
    ∃ q, q ≠ p ∧ s'.frame? leaf = some { page := q, dirty := true }

section

variable {sp : t.Spot key}

/-- A page that may not be written is as it was. -/
theorem samePage_of_writes (hs : s.Sound) (h : Rooted s.view T.root f t)
    (hwrites : sp.Writes T.config s s') (hpath : ¬ T.OnPath s.view sp.leaf id)
    (hnew : ¬ (s.count ≤ id.index ∧ id.index < s'.count))
    (hbelow : ¬ T.BelowOverflow s.view sp.leaf id) : s.SamePage s' id := by
  have hne : id ≠ sp.leaf := fun heq => hpath (heq ▸ sp.onPath_leaf h)
  refine hwrites.samePage hs hnew fun hmem => ?_
  rw [List.mem_cons, List.mem_append] at hmem
  rcases hmem with heq | hmem | hmem
  · exact hne heq
  · exact hpath (PageTree.Spot.onPath_of_mem_above h hmem)
  · exact hbelow (PageTree.Spot.belowOverflow_of_mem_moved h hmem hne)

/-- Of a page that is not on the way down at most the bytes that name its parent change. -/
theorem sameButParent_of_footprint (h : Rooted s.view T.root f t)
    (hfoot : sp.Footprint T.config x s.view s.count s') (hpath : ¬ T.OnPath s.view sp.leaf id)
    (hlt : id.index < s.count) {g : Frame} (hv : s.view id = some g) :
    ∃ g', s'.view id = some g' ∧ g'.page.SameButParent g.page := by
  obtain ⟨_, _, _, -, -, hspared⟩ := hfoot
  have hne : id ≠ sp.leaf := fun heq => hpath (heq ▸ sp.onPath_leaf h)
  refine hspared.body hlt (fun hmem => hpath (PageTree.Spot.onPath_of_mem_above h hmem)) ?_
  rwa [Function.update_of_ne hne]

/-- A leaf with room is changed, and marked. -/
theorem frame?_leaf_of_room {p : Page} (hs : s.Sound) (h : Rooted s.view T.root f t)
    (h' : Rooted s'.view T.root f (sp.grown T.config s.count x))
    (hfoot : sp.Footprint T.config x s.view s.count s')
    (hn : s.view.node? sp.leaf = some (.leaf, p)) (hroom : p.count < T.config.leafMax) :
    ∃ q, q ≠ p ∧ s'.frame? sp.leaf = some { page := q, dirty := true } := by
  obtain ⟨p', d, q, hv, hq, hspared⟩ := hfoot
  obtain ⟨p'', hn', -, -, hcount⟩ := sp.node h.held
  obtain ⟨⟨d', hv'⟩, -⟩ := View.node?_eq_some_iff.mp hn
  cases hn.symm.trans hn'
  cases hv.symm.trans hv'
  rw [hcount] at hroom
  rw [PageTree.Spot.written?, if_pos hroom] at hq
  rw [PageTree.Spot.above, PageTree.Spot.moved, if_pos hroom, if_pos hroom] at hspared
  have hleaf := hspared.frame (hs.index_lt_count hn) List.not_mem_nil List.not_mem_nil
  rw [Function.update_self] at hleaf
  have hmax : T.config.leafMax ≤ leafCapacity := T.config.leafMax_le
  refine ⟨q, Page.ne_of_insertCell? (hcount ▸ sp.index_le) (by omega) hq, ?_⟩
  -- It is a node still, so it is not a page that is yet to be made.
  have hmem : sp.leaf ∈ (sp.grown T.config s.count x).pages := by
    rw [sp.pages_grown.mem_iff, List.mem_append, sp.pages_perm.mem_iff]
    exact .inl List.mem_cons_self
  obtain ⟨⟨_, _⟩, hnode⟩ :=
    Option.isSome_iff_exists.mp (h'.held.unfolds.isSome_of_mem_pages hmem)
  exact (frame?_of_node hnode hleaf).resolve_right fun hfile => Bool.noConfusion hfile.2

end

/-- **An insert reaches no further than it has to.** In a tree that passes the check an insert that
succeeds writes the leaf where the search ends, and if that has room, no other page. If it is full,
a page that is not on the way from the root down to it, not new and not a child of an internal node
that overflows keeps all its bytes and its mark, and of one that is only such a child at most the
four bytes that name its parent change. -/
theorem insert_confined (T : Tree) (s s' : Pager) (key : Key) (value : Payload)
    (hs : s.Reachable) (hvalid : (T.validate s).1 = .ok ())
    (hrun : T.insert key value s = (.ok (), s')) :
    ∃ pos p, (T.search key s).1 = .ok pos ∧ s.view.node? pos.page = some (.leaf, p) ∧
      T.Confined s s' pos.page p := by
  obtain ⟨t, h⟩ := validate_eq_ok_iff.mp hvalid
  obtain ⟨sp, hsearch, h', hfoot, hwrites⟩ :=
    insert_added (x := ⟨key, value⟩) T.config.fill_admits hs.sound h hrun
  obtain ⟨p, hn, -, -, hcount⟩ := sp.node h.held
  refine ⟨_, p, hsearch, hn, ?_⟩
  constructor
  case same => exact samePage_of_writes hs.sound h hwrites
  case child =>
    intro id g hpath hnew hv
    by_cases hlt : id.index < s.count
    · exact sameButParent_of_footprint h hfoot hpath hlt hv
    · have hcount' := hwrites.count
      have hsame : s.SamePage s' id := .of_count_le hs.sound hwrites.sound (by omega) (by omega)
      exact ⟨g, hsame.view.trans hv, .refl _⟩
  case room =>
    intro hroom
    have hcost := sp.cost_of_room (hcount ▸ hroom)
    have hcount' := hwrites.count
    rw [hcost, Nat.add_zero] at hcount'
    refine ⟨hcount', fun {id} hne => hwrites.samePage hs.sound (by omega) ?_,
      frame?_leaf_of_room hs.sound h h' hfoot hn hroom⟩
    rw [hcount] at hroom
    rw [PageTree.Spot.above, PageTree.Spot.moved, if_pos hroom, if_pos hroom]
    exact fun hmem => hne (List.mem_singleton.mp hmem)

/-- An insert with which a leaf and the root above it overflow, and another child of that root. -/
theorem insert_confined_root :
    let T : Tree := { root := rootPage, config := { leafMax := 2, internalMax := 2 } }
    ∃ s s' : Pager, s.Reachable ∧ (T.validate s).1 = .ok () ∧
      T.insert 7 (Vector.replicate _ 0) s = (.ok (), s') ∧
      ∃ pos id g g', (T.search 7 s).1 = .ok pos ∧ ¬ T.OnPath s.view pos.page id ∧
        T.BelowOverflow s.view pos.page id ∧ s.view id = some g ∧ s'.view id = some g' ∧
        g'.page.SameButParent g.page := by
  intro T
  obtain ⟨s, hund, hused, h⟩ := PageTree.exists_threeLeaves T.config (by decide)
  change Rooted s.view T.root T.config.fill _ at h
  have hvalid := validate_eq_ok_iff.mpr ⟨_, h⟩
  obtain ⟨s', hrun⟩ := insert_threeLeaves (x := ⟨7, Vector.replicate _ 0⟩) hund.reachable.sound h
    hused (by rw [PageTree.keys_threeLeaves]; decide)
  obtain ⟨pos, p, hsearch, hn, hconfined⟩ :=
    insert_confined T s s' 7 (Vector.replicate _ 0) hund.reachable hvalid hrun
  -- Of the first two leaves one is not where the search ends.
  obtain ⟨id, cells, hmem, hne⟩ :
      ∃ id cells, .leaf id cells ∈ PageTree.threeLeaves.kids ∧ id ≠ pos.page := by
    by_cases hfirst : (⟨1⟩ : PageId) = pos.page
    · exact ⟨⟨2⟩, _, List.mem_cons_of_mem _ List.mem_cons_self, hfirst ▸ by decide⟩
    · exact ⟨⟨1⟩, _, List.mem_cons_self, hfirst⟩
  obtain ⟨q, hq, -⟩ := h.isLeaf (PageTree.mem_nodes_of_mem_kids hmem)
  obtain ⟨⟨d, hv⟩, -⟩ := View.node?_eq_some_iff.mp hq
  have hpath : ¬ T.OnPath s.view pos.page id := fun hpath => hne (hpath.2.eq_of_leaf hq)
  have hlt := hund.reachable.sound.index_lt_count hq
  obtain ⟨g', hv', hsame⟩ := hconfined.child hpath (by omega) hv
  -- The leaf where it ends is full, and so is the root.
  obtain ⟨hkid, hlen⟩ := PageTree.leaf_of_mem_threeLeaves (search_leaf h hsearch hn)
  have hover : T.Overflows s.view pos.page 1 T.root :=
    .of_kid h hkid (Nat.le_of_eq hlen.symm) (by decide)
  obtain ⟨r, hr, -⟩ := h.held.isBranch
  have hchild : s.view.Child T.root id :=
    ⟨r, hr.node, hr.children_eq ▸ List.mem_map_of_mem hmem⟩
  exact ⟨s, s', hund.reachable, hvalid, hrun, pos, id, _, g', hsearch, hpath,
    ⟨0, T.root, hover, hchild⟩, hv, hv', hsame⟩

end Tree

end PagedTable
