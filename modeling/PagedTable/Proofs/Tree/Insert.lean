import PagedTable.Proofs.Tree.Footprint

/-!
# Inserting a cell

An insert leaves the pages of the tree that `PageTree.Spot.grown` describes.

* `insertCell_run`: a leaf with room takes the cell in.
* `splitLeaf_run`: a full leaf is split around the cell.
* `insert_room_run`, `insert_full_run`: an insert of an absent key, where its leaf has room and
  where it has none.
* `insert_run`: all that an insert can do (`Tree.Inserted`). It is refused exactly if the key is in
  the tree or the table cannot hold the pages that the splits take, and then no page is changed.
  Else pages change as `PageTree.Spot.Footprint` says.
* `insert_added`: what an insert leaves that succeeds.
-/

namespace PagedTable

open PagedTable.Action Pager Crumb
open PageTree (plug graft)

variable {m : View} {s s' : Pager} {root id : PageId} {up : Option PageId} {f : Fill}
  {t : PageTree} {key : Key} {x : Cell} {n : Nat}

/-! ## The leaf -/

/-- A leaf that was written from its cells is held. -/
theorem Held.leaf_of_written {q : Page} {d : Bool} {cells : List Cell}
    (hv : s.view id = some ⟨q, d⟩) (htag : q.tag = NodeKind.leaf.tag) (hp : q.Placed root up id)
    (hcap : cells.length ≤ leafCapacity) (hc : q.cells = cells) :
    Held s.view root up (.leaf id cells) := by
  have hcount : q.count ≤ leafCapacity := by rwa [← Page.length_cells, hc]
  exact .leaf (View.node?_eq_some_iff.mpr ⟨⟨d, hv⟩, htag, hcount⟩) hp hc

/-- **Room in the leaf.** -/
theorem insertCell_run {cfg : Config} (hs : s.Sound) (h : Held s.view root none t)
    (hnd : t.pages.Nodup) (sp : t.Spot key) (hroom : sp.cells.length < cfg.leafMax) :
    ∃ s', edit sp.leaf (fun p => p.insertCell? sp.index x) s = (.ok (), s') ∧
      sp.Writes cfg s s' ∧ Held s'.view root none (sp.grown cfg s.count x) ∧
      sp.Footprint cfg x s.view s.count s' := by
  have hmax : cfg.leafMax ≤ leafCapacity := cfg.leafMax_le
  obtain ⟨p, hn, hplaced, hcells, hcount⟩ := sp.node h
  obtain ⟨⟨d, hv⟩, htag, -⟩ := View.node?_eq_some_iff.mp hn
  obtain ⟨q, hq, hheader, hqcells⟩ :=
    Page.insertCell?_of_lt (p := p) x (hcount ▸ sp.index_le) (by omega)
  rw [hcells] at hqcells
  have hqtag := (Page.header_eq_iff.mp hheader).1
  obtain ⟨s', hrun, hch, hview⟩ := edit_known (g := fun p => p.insertCell? sp.index x) hs
    (hs.index_lt_count hn) hv hq
  refine ⟨s', hrun, ⟨[sp.leaf], ?_, fun j hj => .inr (by simp_all)⟩, ?_, p, d, q, hv, ?_, ?_⟩
  · rwa [sp.cost_of_room hroom]
  · have hcap : (sp.cells.insertIdx sp.index x).length ≤ leafCapacity := by
      rw [sp.length_insertIdx]
      omega
    have hleaf : Held s'.view root (Crumb.up sp.crumbs)
        (.leaf sp.leaf (sp.cells.insertIdx sp.index x)) :=
      .leaf_of_written hview (hqtag.trans htag) (hplaced.of_header hheader) hcap hqcells
    rw [sp.grown_of_room hroom]
    rw [← sp.plug_eq] at h
    refine h.replace rfl (sp.greatest?_insertIdx x) (fun id hid => hch.frame fun hmem => ?_) hleaf
    exact sp.leaf_notMem hnd (List.mem_singleton.mp hmem ▸ hid)
  · rw [PageTree.Spot.written?, if_pos hroom, hq]
  · exact .of_changed hch (fun j hj hne => absurd (List.mem_singleton.mp hj) hne) hview

/-- The upper half of a leaf ends with the same key as all of it. -/
theorem PageTree.greatest?_drop_leaf {cells : List Cell} {half : Nat} (h : half < cells.length)
    (i j : PageId) : (leaf i (cells.drop half)).greatest? = (leaf j cells).greatest? := by
  rw [greatest?, greatest?, keys_leaf, keys_leaf, List.map_drop, List.getLast?_drop,
    if_neg (by rw [List.length_map]; omega)]

/-- **The halves of a leaf** are written to its page and to the first one that is not in use. -/
theorem tear_run {T : Tree} {cs : List Crumb} {leaf : PageId} {old cells : List Cell} {p : Page}
    {half : Nat} (hs : s.Sound) (h : Held s.view T.root none (plug cs (.leaf leaf old)))
    (hid : (plug cs (.leaf leaf old)).id = T.root) (hnd : (plug cs (.leaf leaf old)).pages.Nodup)
    (hn : s.view.node? leaf = some (.leaf, p)) (hroom : s.count < maxPages)
    (hlower : half ≤ leafCapacity) (hupper : cells.length - half ≤ leafCapacity)
    (hhalf : half < cells.length)
    (hg : (PageTree.leaf leaf cells).greatest? = (PageTree.leaf leaf old).greatest? ∨
      Rightmost cs) :
    ∃ q s', p.setCells? (cells.take half) = some q ∧
      (do
        edit (.ofIndex s.count) fun _ =>
          ((Page.empty .leaf).setParent p.parent).setCells? (cells.drop half)
        edit leaf fun p => p.setCells? (cells.take half)) s = (.ok (), s') ∧
      Changed [.ofIndex s.count, leaf] 1 s s' ∧
      s'.view leaf = some { page := q, dirty := true } ∧
      Torn T s.view cs (.leaf leaf old) (.leaf leaf (cells.take half))
        (.leaf (.ofIndex s.count) (cells.drop half)) s' := by
  obtain ⟨q₁, hq₁, hheader₁, hcells₁⟩ := Page.setCells?_of_le
    ((Page.empty .leaf).setParent p.parent) (List.length_drop ▸ hupper :
      (cells.drop half).length ≤ leafCapacity)
  have htake : (cells.take half).length ≤ leafCapacity := by
    rw [List.length_take]
    omega
  obtain ⟨q₂, hq₂, hheader₂, hcells₂⟩ := Page.setCells?_of_le p htake
  obtain ⟨⟨d, hv⟩, htag, -⟩ := View.node?_eq_some_iff.mp hn
  obtain ⟨s', hrun, hch, hview₁, hview₂⟩ := edit_fresh_known hs hroom (hs.index_lt_count hn) hv
    (g := fun _ => ((Page.empty .leaf).setParent p.parent).setCells? (cells.drop half))
    (e := fun p => p.setCells? (cells.take half)) hq₁ hq₂
  have hplaced : p.Placed T.root (up cs) leaf := by
    obtain ⟨p', hn', hplaced, -⟩ := h.leaf_of_plug
    rw [hn] at hn'
    cases hn'
    exact hplaced
  have hfresh := h.fresh_notMem hs hroom
  have hnewroot : PageId.ofIndex s.count ≠ T.root := fun heq =>
    hfresh (heq ▸ hid ▸ (plug cs (.leaf leaf old)).id_mem_pages)
  have hperm := PageTree.pages_plug cs (.leaf leaf old)
  rw [PageTree.pages_leaf, List.singleton_append] at hperm
  have hnd' := hperm.nodup_iff.mp hnd
  rw [hperm.mem_iff, List.mem_cons, not_or] at hfresh
  refine ⟨q₂, s', hq₂, hrun, hch, hview₂, ?_⟩
  constructor
  case sound => exact hch.sound
  case old => exact h
  case root_eq => exact hid
  case frame =>
    intro id hmem
    refine hch.frame fun hid => ?_
    simp only [List.mem_cons, List.not_mem_nil, or_false] at hid
    rcases hid with rfl | rfl
    · exact hfresh.2 hmem
    · exact (List.nodup_cons.mp hnd').1 hmem
  case left_id => rfl
  case left =>
    have htag₂ := (Page.header_eq_iff.mp hheader₂).1
    exact .leaf_of_written hview₂ (htag₂.trans htag) (hplaced.of_header hheader₂) htake hcells₂
  case right =>
    obtain ⟨htag₁, hplaced₁⟩ := hplaced.of_fresh hnewroot hheader₁
    exact .leaf_of_written hview₁ htag₁ hplaced₁ (List.length_drop ▸ hupper) hcells₁
  case greatest =>
    rwa [PageTree.greatest?_drop_leaf hhalf _ leaf]
  case nodup =>
    rw [PageTree.pages_leaf, PageTree.pages_leaf, List.singleton_append,
      List.perm_append_comm.nodup_iff, List.cons_append, List.cons_append]
    refine List.nodup_cons.mpr ⟨?_, List.nodup_cons.mpr ⟨hfresh.2, (List.nodup_cons.mp hnd').2⟩⟩
    rw [List.mem_cons, not_or]
    exact ⟨Ne.symm hfresh.1, (List.nodup_cons.mp hnd').1⟩

/-- The halves of a full leaf, before the upper one is hooked in. -/
theorem tearLeaf_step {T : Tree} (hs : s.Sound) (h : Rooted s.view T.root f t) (sp : t.Spot key)
    (hfull : T.config.leafMax ≤ sp.cells.length) (hroom : s.count < maxPages)
    {cells : List Cell} (hinsert : sp.cells.insertIdx sp.index x = cells) :
    ∃ p d q s', s.view sp.leaf = some ⟨p, d⟩ ∧ sp.written? T.config x p = some q ∧
      Tree.tearLeaf sp.leaf sp.index x s = (.ok (.ofIndex s.count), s') ∧
      Changed [.ofIndex s.count, sp.leaf] 1 s s' ∧
      s'.view sp.leaf = some { page := q, dirty := true } ∧
      Torn T s.view sp.crumbs (.leaf sp.leaf sp.cells)
        (.leaf sp.leaf (cells.take ((cells.length + 1) / 2)))
        (.leaf (.ofIndex s.count) (cells.drop ((cells.length + 1) / 2))) s' := by
  obtain ⟨p, hn, -, hcells, hcount⟩ := sp.node h.held
  have hcap : sp.cells.length ≤ leafCapacity := hcount ▸ View.count_le hn
  have hmax : 2 ≤ T.config.leafMax := T.config.two_le_leafMax
  obtain ⟨⟨d, hv⟩, -⟩ := View.node?_eq_some_iff.mp hn
  -- The leaf is loaded first, and nothing else changes.
  obtain ⟨s₁, hseen, hrun₁⟩ := node_seen hn
  obtain ⟨hs₁, hcount₁⟩ := hseen.sound hs
  rw [← hseen.view] at h hn
  obtain ⟨hplug, hid, hnd, -⟩ := sp.opened h
  have hlen := sp.length_insertIdx x
  have hg := sp.greatest?_insertIdx x
  rw [hinsert] at hlen hg
  obtain ⟨q, s₂, hq, hrun₂, hch₂, hview₂, htorn⟩ := tear_run hs₁ hplug hid hnd hn
    (by omega : s₁.count < maxPages) (by omega) (by omega)
    (by omega : (cells.length + 1) / 2 < cells.length) hg
  rw [hseen.view, hcount₁] at htorn
  rw [hcount₁] at hrun₂ hch₂
  refine ⟨p, d, q, s₂, hv, ?_, ?_, (Changed.of_seen hs hseen).trans hch₂, hview₂, htorn⟩
  · rw [PageTree.Spot.written?, if_neg (Nat.not_lt.mpr hfull), hinsert]
    exact hq
  · unfold Tree.tearLeaf
    rw [bind_ok hrun₁]
    dsimp only
    rw [Page.cells?_eq (View.count_le hn), bind_ok (need_some_apply _ _), hcells,
      bind_ok (require_apply_of sp.index_le _), hinsert,
      bind_ok (show allocate s₁ = (.ok (.ofIndex s.count), s₁) by rw [← hcount₁]; rfl),
      ← bind_assoc, bind_ok hrun₂, pure_apply]

/-- A full leaf is split, and its upper half is to be hooked in. -/
theorem splitLeaf_step {T : Tree} (hs : s.Sound) (h : Rooted s.view T.root f t) (sp : t.Spot key)
    (hfull : T.config.leafMax ≤ sp.cells.length) (hroom : s.count < maxPages)
    {cells : List Cell} (hinsert : sp.cells.insertIdx sp.index x = cells) :
    ∃ p d q s', s.view sp.leaf = some ⟨p, d⟩ ∧ sp.written? T.config x p = some q ∧
      T.splitLeaf sp.leaf sp.index x s = T.hook walkLength sp.leaf (.ofIndex s.count) s' ∧
      Changed [.ofIndex s.count, sp.leaf] 1 s s' ∧
      s'.view sp.leaf = some { page := q, dirty := true } ∧
      Torn T s.view sp.crumbs (.leaf sp.leaf sp.cells)
        (.leaf sp.leaf (cells.take ((cells.length + 1) / 2)))
        (.leaf (.ofIndex s.count) (cells.drop ((cells.length + 1) / 2))) s' := by
  obtain ⟨p, d, q, s', hv, hq, hrun, hrest⟩ := tearLeaf_step (x := x) hs h sp hfull hroom hinsert
  refine ⟨p, d, q, s', hv, hq, ?_, hrest⟩
  rw [Tree.splitLeaf_eq, bind_ok hrun]

/-- Where a leaf is split and the upper half is hooked in, no other pages are written than those
that a new cell may write. -/
theorem PageTree.Spot.new_or_mem_of_hooked {cfg : Config} {ids : List PageId} {j new : PageId}
    {lower upper : List Cell} (sp : t.Spot key) (hfull : cfg.leafMax ≤ sp.cells.length)
    (hid : t.id = root) (hnew : new.index = n)
    (hids : ∀ j ∈ ids, n + 1 ≤ j.index ∨
      j ∈ hooked cfg root sp.crumbs (.leaf sp.leaf lower) (.leaf new upper))
    (hj : j ∈ [new, sp.leaf] ++ ids) :
    n ≤ j.index ∨ j ∈ sp.leaf :: (sp.above cfg ++ sp.moved cfg) := by
  have hnot : ¬ sp.cells.length < cfg.leafMax := Nat.not_lt.mpr hfull
  rw [above, moved, if_neg hnot, if_neg hnot, hid]
  by_cases hjnew : j = new
  · rw [hjnew, hnew]
    exact .inl (Nat.le_refl n)
  rcases List.mem_append.mp hj with hj | hj
  · exact .inr (by simp_all)
  · refine (hids j hj).imp Nat.le_of_succ_le fun hmem => ?_
    simp only [hooked, PageTree.id_leaf, PageTree.kids, List.map_nil, List.mem_append,
      List.mem_cons, List.not_mem_nil, or_false] at hmem ⊢
    tauto

/-- **No room in the leaf.** -/
theorem splitLeaf_run {T : Tree} (ha : f.Admits T.config) (hs : s.Sound)
    (h : Rooted s.view T.root f t) (sp : t.Spot key) (hfull : T.config.leafMax ≤ sp.cells.length)
    (hroom : s.count + (1 + risers T.config sp.crumbs) ≤ maxPages) :
    ∃ s', T.splitLeaf sp.leaf sp.index x s = (.ok (), s') ∧ sp.Writes T.config s s' ∧
      Held s'.view T.root none (sp.grown T.config s.count x) ∧
      sp.Footprint T.config x s.view s.count s' := by
  have hlt := h.held.unfolds.length_crumbs_lt sp.plug_eq
  have hgrown : sp.grown T.config s.count x = _ := sp.grown_of_full hfull
  rw [hgrown]
  generalize hinsert : sp.cells.insertIdx sp.index x = cells
  obtain ⟨p, d, q, s₁, hv, hq, hstep, hch, hview, htorn⟩ :=
    splitLeaf_step hs h sp hfull (by omega) hinsert
  obtain ⟨hcrumbs, hlower, hupper⟩ :=
    sp.within_split ha h.within hfull hinsert sp.leaf (PageId.ofIndex s.count)
  have hcount₁ := hch.count
  have hroom₁ : s₁.count + risers T.config sp.crumbs ≤ maxPages := by omega
  obtain ⟨s', ids, hrun, hch', hids, hheld⟩ := hook_run ha htorn hcrumbs hlower hupper hroom₁ hlt
  rw [hcount₁] at hids hheld
  have hfresh : (PageId.ofIndex s.count).index = s.count := index_fresh (by omega)
  have hwrites : sp.Writes T.config s s' := by
    refine ⟨_, ?_, fun j => sp.new_or_mem_of_hooked hfull h.id_eq hfresh hids⟩
    rw [sp.cost_of_full hfull]
    exact hch.trans hch'
  refine ⟨s', hstep.trans hrun, hwrites, hheld, p, d, q, hv, hq, ?_⟩
  have hspared : Spared (Function.update s.view sp.leaf (some { page := q, dirty := true })) s.count
      (t.id :: sp.crumbs.map Crumb.id) (sp.leaf :: shifted T.config sp.crumbs) s₁ :=
    .of_changed hch (by simp [hfresh]) hview
  have hhooked := hook_spared ha htorn hcrumbs hlower hupper hroom₁ hlt hspared
    (by rw [h.id_eq]; exact List.mem_cons_self)
    (fun c hc => List.mem_cons_of_mem _ (List.mem_map_of_mem hc)) (List.subset_cons_self _ _)
    (.inr (by simp)) (.inl (Nat.le_of_eq hfresh.symm)) fun _ hk => absurd hk List.not_mem_nil
  rw [hrun] at hhooked
  have hnot : ¬ sp.cells.length < T.config.leafMax := Nat.not_lt.mpr hfull
  rwa [PageTree.Spot.above, PageTree.Spot.moved, if_neg hnot, if_neg hnot]

/-! ## Inserts -/

/-- **What an insert comes to** where the pager holds the tree `t`. -/
inductive Tree.Inserted (T : Tree) (f : Fill) (t : PageTree) (x : Cell) (s : Pager) :
    Except Fault Unit × Pager → Prop where
  /-- The key is in the tree. -/
  | duplicate {s' : Pager} (mem : x.key ∈ t.keys) (seen : s.Seen s') :
    Inserted T f t x s (.error (.refused (.duplicateKey x.key)), s')
  /-- The table cannot hold the pages that the splits take. -/
  | full {s' : Pager} (sp : t.Spot x.key) (notMem : x.key ∉ t.keys)
    (excess : maxPages < s.count + sp.cost T.config) (seen : s.Seen s') :
    Inserted T f t x s
      (.error (.refused (.pageOutOfBounds (.ofIndex (s.count + sp.cost T.config - 1)))), s')
  /-- The tree has grown. -/
  | added {s' : Pager} (sp : t.Spot x.key) (notMem : x.key ∉ t.keys)
    (room : s.count + sp.cost T.config ≤ maxPages) (sound : s'.Sound)
    (count : s'.count = s.count + sp.cost T.config)
    (rooted : Rooted s'.view T.root f (sp.grown T.config s.count x))
    (footprint : sp.Footprint T.config x s.view s.count s') :
    Inserted T f t x s (.ok (), s')

/-- A key that is not there is inserted where there is room for it. -/
theorem Tree.Inserted.added_of {T : Tree} {r : Except Fault Unit × Pager}
    (h : T.Inserted f t x s r) (hx : x.key ∉ t.keys)
    (hroom : ∀ sp : t.Spot x.key, s.count + sp.cost T.config ≤ maxPages) :
    ∃ (sp : t.Spot x.key) (s' : Pager), r = (.ok (), s') ∧ s'.Sound ∧
      s'.count = s.count + sp.cost T.config ∧
      Rooted s'.view T.root f (sp.grown T.config s.count x) := by
  cases h with
  | duplicate hmem => exact absurd hmem hx
  | full sp _ hexcess => exact absurd (hroom sp) (Nat.not_le.mpr hexcess)
  | added sp _ _ hsound hcount hrooted => exact ⟨sp, _, rfl, hsound, hcount, hrooted⟩

/-- A tree that holds the cells of the grown one is whole. -/
theorem Rooted.grown {T : Tree} {fresh : Nat} (ha : f.Admits T.config)
    (h : Rooted s.view T.root f t) (sp : t.Spot x.key) (hkey : x.key ∉ t.keys)
    (hheld : Held m T.root none (sp.grown T.config fresh x)) :
    Rooted m T.root f (sp.grown T.config fresh x) :=
  ⟨sp.id_grown.trans h.id_eq, hheld, sp.within_grown ha h.within,
    sp.ordered_grown h.ordered rfl hkey⟩

/-- The pages that a split takes are counted before anything is written. -/
theorem reserve_run {T : Tree} (hs : s.Sound) (h : Rooted s.view T.root f t) (sp : t.Spot key)
    (hfull : T.config.leafMax ≤ sp.cells.length) :
    ∃ s', s.Seen s' ∧ T.reserve sp.leaf s =
      if maxPages < s.count + sp.cost T.config then
        (.error (.refused (.pageOutOfBounds (.ofIndex (s.count + sp.cost T.config - 1)))), s')
      else (.ok (), s') := by
  obtain ⟨hplug, hid, hnd, hlt⟩ := sp.opened h
  obtain ⟨s', hseen, hrun⟩ := Tree.splitCost_run hplug hid hnd hlt 1
  rw [PageTree.id_leaf] at hrun
  refine ⟨s', hseen, ?_⟩
  unfold Tree.reserve
  rw [bind_ok hrun, bind_ok (state_apply s'), (hseen.sound hs).2, sp.cost_of_full hfull]
  split <;> rfl

/-- An absent key is inserted where the search for it ends. -/
theorem insertBegin_absent_run {T : Tree} {s₁ : Pager} (h : Rooted s.view T.root f t)
    (sp : t.Spot x.key) (hseen₁ : s.Seen s₁)
    (hrun₁ : T.search x.key s = (.ok ⟨sp.leaf, sp.index, false⟩, s₁)) :
    ∃ s₂, s.Seen s₂ ∧ T.insertBegin x.key x.value s =
      (if sp.cells.length < T.config.leafMax then do
        edit sp.leaf fun p => p.insertCell? sp.index x
        return none
      else do
        T.reserve sp.leaf
        return some (sp.leaf, ← Tree.tearLeaf sp.leaf sp.index x)) s₂ := by
  rw [← hseen₁.view] at h
  obtain ⟨p, hn, -, -, hcount⟩ := sp.node h.held
  obtain ⟨s₂, hseen₂, hrun₂⟩ := node_seen hn
  refine ⟨s₂, hseen₁.trans hseen₂, ?_⟩
  unfold Tree.insertBegin
  rw [bind_ok hrun₁]
  dsimp only
  rw [if_neg Bool.false_ne_true, bind_ok hrun₂]
  dsimp only
  rw [hcount]

/-- The halves of a leaf that had to be split are hooked in. -/
theorem insert_absent_run {T : Tree} {s₁ : Pager} (h : Rooted s.view T.root f t)
    (sp : t.Spot x.key) (hseen₁ : s.Seen s₁)
    (hrun₁ : T.search x.key s = (.ok ⟨sp.leaf, sp.index, false⟩, s₁)) :
    ∃ s₂, s.Seen s₂ ∧ T.insert x.key x.value s =
      (if sp.cells.length < T.config.leafMax then
        edit sp.leaf fun p => p.insertCell? sp.index x
      else do
        T.reserve sp.leaf
        T.splitLeaf sp.leaf sp.index x) s₂ := by
  obtain ⟨s₂, hseen, hrun⟩ := insertBegin_absent_run h sp hseen₁ hrun₁
  refine ⟨s₂, hseen, ?_⟩
  rw [Tree.insert_eq, bind_of_eq hrun]
  split
  · simp only [bind_assoc, pure_bind, Tree.insertEnd, bind_pure_unit]
  · simp only [Tree.splitLeaf_eq, bind_assoc, pure_bind]
    rfl

/-- **An insert into a leaf with room** takes no page. -/
theorem insert_room_run {T : Tree} {s₁ : Pager} (ha : f.Admits T.config) (hs : s.Sound)
    (h : Rooted s.view T.root f t) (sp : t.Spot x.key) (hkey : x.key ∉ t.keys) (hseen₁ : s.Seen s₁)
    (hrun₁ : T.search x.key s = (.ok ⟨sp.leaf, sp.index, false⟩, s₁))
    (hroom : sp.cells.length < T.config.leafMax) :
    ∃ s', T.insert x.key x.value s = (.ok (), s') ∧ s'.Sound ∧ s'.count = s.count ∧
      Rooted s'.view T.root f (sp.grown T.config s.count x) ∧
      sp.Footprint T.config x s.view s.count s' ∧ sp.Writes T.config s s' := by
  obtain ⟨s₂, hseen, hrun₂⟩ := insert_absent_run h sp hseen₁ hrun₁
  obtain ⟨hs₂, hcount₂⟩ := hseen.sound hs
  rw [← hseen.view] at h
  rw [if_pos hroom] at hrun₂
  obtain ⟨s', hrun, hwrites, hheld, hfootprint⟩ :=
    insertCell_run (x := x) hs₂ h.held h.nodup sp hroom
  rw [hseen.view, hcount₂] at hfootprint
  rw [hcount₂] at hheld
  have hwrites := hwrites.of_seen hs hseen
  refine ⟨s', hrun₂.trans hrun, hwrites.sound, ?_, h.grown ha sp hkey hheld, hfootprint, hwrites⟩
  rw [hwrites.count, sp.cost_of_room hroom, Nat.add_zero]

/-- **An insert into a full leaf** takes the pages that are counted for it, or is refused. -/
theorem insert_full_run {T : Tree} {s₁ : Pager} (ha : f.Admits T.config) (hs : s.Sound)
    (h : Rooted s.view T.root f t) (sp : t.Spot x.key) (hkey : x.key ∉ t.keys) (hseen₁ : s.Seen s₁)
    (hrun₁ : T.search x.key s = (.ok ⟨sp.leaf, sp.index, false⟩, s₁))
    (hfull : T.config.leafMax ≤ sp.cells.length) :
    (maxPages < s.count + sp.cost T.config → ∃ s', s.Seen s' ∧ T.insert x.key x.value s =
      (.error (.refused (.pageOutOfBounds (.ofIndex (s.count + sp.cost T.config - 1)))), s')) ∧
    (s.count + sp.cost T.config ≤ maxPages → ∃ s', T.insert x.key x.value s = (.ok (), s') ∧
      s'.Sound ∧ s'.count = s.count + sp.cost T.config ∧
      Rooted s'.view T.root f (sp.grown T.config s.count x) ∧
      sp.Footprint T.config x s.view s.count s' ∧ sp.Writes T.config s s') := by
  obtain ⟨s₂, hseen₂, hrun₂⟩ := insert_absent_run h sp hseen₁ hrun₁
  obtain ⟨hs₂, hcount₂⟩ := hseen₂.sound hs
  rw [← hseen₂.view] at h
  rw [if_neg (Nat.not_lt.mpr hfull)] at hrun₂
  obtain ⟨s₃, hseen₃, hrun₃⟩ := reserve_run hs₂ h sp hfull
  obtain ⟨hs₃, hcount₃⟩ := hseen₃.sound hs₂
  rw [hcount₂] at hrun₃ hcount₃
  constructor
  · intro hover
    rw [if_pos hover] at hrun₃
    exact ⟨s₃, hseen₂.trans hseen₃, hrun₂.trans (bind_error hrun₃)⟩
  · intro hroom
    rw [if_neg (Nat.not_lt.mpr hroom)] at hrun₃
    rw [← hseen₃.view] at h
    rw [sp.cost_of_full hfull, ← hcount₃] at hroom
    obtain ⟨s', hrun, hwrites, hheld, hfootprint⟩ :=
      splitLeaf_run (x := x) ha hs₃ h sp hfull hroom
    rw [hseen₃.view, hseen₂.view, hcount₃] at hfootprint
    rw [hcount₃] at hheld
    have hwrites := (hwrites.of_seen hs₂ hseen₃).of_seen hs hseen₂
    exact ⟨s', hrun₂.trans ((bind_ok hrun₃).trans hrun), hwrites.sound, hwrites.count,
      h.grown ha sp hkey hheld, hfootprint, hwrites⟩

/-- **All that an insert can do.** -/
theorem insert_run {T : Tree} (ha : f.Admits T.config) (hs : s.Sound)
    (h : Rooted s.view T.root f t) (x : Cell) : T.Inserted f t x s (T.insert x.key x.value s) := by
  obtain ⟨sp, found, s₁, hfound, hseen₁, hrun₁⟩ := Tree.search_run h x.key
  by_cases hmem : x.key ∈ t.keys
  · unfold Tree.insert
    rw [bind_ok hrun₁]
    dsimp only
    rw [if_pos (hfound.mpr hmem)]
    exact .duplicate hmem hseen₁
  obtain rfl : found = false := Bool.eq_false_iff.mpr fun hf => hmem (hfound.mp hf)
  by_cases hroom : sp.cells.length < T.config.leafMax
  · obtain ⟨s', hrun, hs', hcount', hrooted, hfootprint, -⟩ :=
      insert_room_run ha hs h sp hmem hseen₁ hrun₁ hroom
    have hcost := sp.cost_of_room hroom
    refine (congrArg (T.Inserted f t x s) hrun).mpr
      (.added sp hmem ?_ hs' (by rw [hcount', hcost]; rfl) hrooted hfootprint)
    rw [hcost]
    exact hs.count_le
  · obtain ⟨hover, hsplit⟩ :=
      insert_full_run ha hs h sp hmem hseen₁ hrun₁ (Nat.le_of_not_lt hroom)
    by_cases hexcess : maxPages < s.count + sp.cost T.config
    · obtain ⟨s', hseen, hrun⟩ := hover hexcess
      exact (congrArg (T.Inserted f t x s) hrun).mpr (.full sp hmem hexcess hseen)
    · have hpages := Nat.le_of_not_lt hexcess
      obtain ⟨s', hrun, hs', hcount', hrooted, hfootprint, -⟩ := hsplit hpages
      exact (congrArg (T.Inserted f t x s) hrun).mpr
        (.added sp hmem hpages hs' hcount' hrooted hfootprint)

/-- **An insert that succeeds** goes where the search for the key ends. -/
theorem insert_added {T : Tree} (ha : f.Admits T.config) (hs : s.Sound)
    (h : Rooted s.view T.root f t) (hrun : T.insert x.key x.value s = (.ok (), s')) :
    ∃ sp : t.Spot x.key, (T.search x.key s).1 = .ok ⟨sp.leaf, sp.index, false⟩ ∧
      Rooted s'.view T.root f (sp.grown T.config s.count x) ∧
      sp.Footprint T.config x s.view s.count s' ∧ sp.Writes T.config s s' := by
  obtain ⟨sp, found, s₁, hfound, hseen₁, hrun₁⟩ := Tree.search_run h x.key
  have hr := insert_run ha hs h x
  rw [hrun] at hr
  cases hr with
  | added _ notMem =>
    obtain rfl : found = false := Bool.eq_false_iff.mpr fun hf => notMem (hfound.mp hf)
    refine ⟨sp, congrArg Prod.fst hrun₁, ?_⟩
    by_cases hroom : sp.cells.length < T.config.leafMax
    · obtain ⟨_, hok, -, -, hrest⟩ := insert_room_run ha hs h sp notMem hseen₁ hrun₁ hroom
      cases hrun.symm.trans hok
      exact hrest
    · obtain ⟨hover, hsplit⟩ :=
        insert_full_run ha hs h sp notMem hseen₁ hrun₁ (Nat.le_of_not_lt hroom)
      by_cases hexcess : maxPages < s.count + sp.cost T.config
      · obtain ⟨_, -, herror⟩ := hover hexcess
        cases hrun.symm.trans herror
      · obtain ⟨_, hok, -, -, hrest⟩ := hsplit (Nat.le_of_not_lt hexcess)
        cases hrun.symm.trans hok
        exact hrest

end PagedTable
