import Mathlib.Data.List.TakeDrop
import PagedTable.Proofs.PageTree.Graft
import PagedTable.Proofs.Pager.Change
import PagedTable.Proofs.Tree.Search

/-!
# Splitting nodes

What each step of a split does to the pages, said on trees that are held.

* `adopt_run`, `share_run`: subtrees are given another parent, or shared out between two.
* `Topped`: a page that was written as a branch. The branch is held once its subtrees are.
* `raiseRoot_run`: a new root stands above the halves of the old one.
* `splitInternal_run`: the subtrees of a branch are shared out between two pages.
* `Torn`: a tree with a subtree split, before the page above names the upper half. `Torn.mended`
  makes it whole again, and `rise_run` tears it one level further up.
* `hook_run`: the halves of a subtree end as `PageTree.graft` says, the pages in use grow by
  `Crumb.risers`, and of the others those that `Crumb.hooked` names are written.
-/

namespace PagedTable

open PagedTable.Action Pager Crumb
open PageTree (plug graft)

variable {s s' : Pager} {ids : List PageId} {n : Nat} {root id new : PageId}
  {up up' : Option PageId} {f : Fill} {top : Bool} {t : PageTree} {kids : List PageTree}

/-! ## Trees under changes -/

/-- Trees stay held whose pages are not changed. -/
theorem Pager.Changed.held (h : Changed ids n s s') (ht : Held s.view root up t)
    (hd : ∀ id ∈ t.pages, id ∉ ids) : Held s'.view root up t :=
  ht.congr fun id hid => h.frame (hd id hid)

/-- Every page of a tree is in use. -/
theorem Held.index_lt_count (h : Held s.view root up t) (hs : s.Sound) (hid : id ∈ t.pages) :
    id.index < s.count := by
  obtain ⟨⟨_, _⟩, hn⟩ := Option.isSome_iff_exists.mp (h.unfolds.isSome_of_mem_pages hid)
  exact hs.index_lt_count hn

/-- The first page that is not in use is in no tree. -/
theorem Held.fresh_notMem (h : Held s.view root up t) (hs : s.Sound) (hroom : s.count < maxPages) :
    PageId.ofIndex s.count ∉ t.pages := by
  intro hmem
  have := h.index_lt_count hs hmem
  rw [index_fresh hroom] at this
  omega

/-- A top node's header may be rewritten. -/
theorem edit_top_run {g : Page → Page} (hs : s.Sound) (h : Held s.view root up t)
    (hbody : ∀ p, (g p).SameBody p) (htag : ∀ p, (g p).tag = p.tag)
    (hp : ∀ p, p.Placed root up t.id → (g p).Placed root up' t.id) :
    ∃ s', edit t.id (fun p => some (g p)) s = (.ok (), s') ∧ Changed [t.id] 0 s s' ∧
      Held s'.view root up' t := by
  obtain ⟨kind, p, hn, hplaced⟩ := h.node
  obtain ⟨⟨d, hv⟩, -⟩ := View.node?_eq_some_iff.mp hn
  obtain ⟨s', hrun, hch, hnew⟩ := edit_known (g := fun p => some (g p)) hs
    (hs.index_lt_count hn) hv rfl
  refine ⟨s', hrun, hch, h.retop hn hnew (hbody p) (htag p) (hp p hplaced) fun k hk id hid => ?_⟩
  refine hch.frame fun hmem => ?_
  rw [List.mem_singleton] at hmem
  subst hmem
  cases t with
  | leaf => cases hk
  | branch i kids => exact h.unfolds.id_notMem_kids k hk hid

theorem setParent_run (hs : s.Sound) (h : Held s.view root up t) (q : PageId) :
    ∃ s', Tree.setParent q t.id s = (.ok (), s') ∧ Changed [t.id] 0 s s' ∧
      Held s'.view root (some q) t := by
  refine edit_top_run hs h (fun p => p.sameBody_setParent q) (fun p => p.tag_setParent q)
    fun p hp => ⟨?_, fun hq => ?_⟩
  · rw [Page.isRoot_setParent, hp.isRoot]
  · rw [Page.parent_setParent, Option.some.inj hq]

/-- **Subtrees are given another parent**, one after another. -/
theorem adopt_run (hs : s.Sound) (q : PageId)
    (h : ∀ k ∈ kids, ∃ up, Held s.view root up k) (hnd : (kids.flatMap PageTree.pages).Nodup) :
    ∃ s', (kids.map PageTree.id).forM (Tree.setParent q) s = (.ok (), s') ∧
      Changed (kids.map PageTree.id) 0 s s' ∧ ∀ k ∈ kids, Held s'.view root (some q) k := by
  induction kids generalizing s with
  | nil => exact ⟨s, rfl, .of_seen hs (.refl s), fun _ hk => absurd hk List.not_mem_nil⟩
  | cons k kids ih =>
    rw [List.flatMap_cons, List.nodup_append] at hnd
    obtain ⟨hndk, hnd, hdisj⟩ := hnd
    obtain ⟨up, hk⟩ := h k List.mem_cons_self
    obtain ⟨s₁, hrun₁, hch₁, hk₁⟩ := setParent_run hs hk q
    have hrest : ∀ j ∈ kids, ∃ up, Held s₁.view root up j := by
      intro j hj
      obtain ⟨up, hheld⟩ := h j (List.mem_cons_of_mem _ hj)
      refine ⟨up, hch₁.held hheld fun id hid hmem => ?_⟩
      rw [List.mem_singleton] at hmem
      subst hmem
      exact hdisj _ k.id_mem_pages _ (List.mem_flatMap.mpr ⟨j, hj, hid⟩) rfl
    obtain ⟨s₂, hrun₂, hch₂, hkids⟩ := ih hch₁.sound hrest hnd
    refine ⟨s₂, ?_, hch₁.trans hch₂, List.forall_mem_cons.mpr ⟨?_, hkids⟩⟩
    · show (Tree.setParent q k.id >>= fun _ =>
        (kids.map PageTree.id).forM (Tree.setParent q)) s = _
      rw [bind_ok hrun₁, hrun₂]
    · refine hch₂.held hk₁ fun id hid hmem => ?_
      obtain ⟨j, hj, rfl⟩ := List.mem_map.mp hmem
      exact hdisj _ hid _ (List.mem_flatMap.mpr ⟨j, hj, j.id_mem_pages⟩) rfl

/-! ## A new root -/

/-- A node above two subtrees. -/
theorem setLinks?_pair (p : Page) (left right : PageId) (key : Key) :
    ∃ q, p.setLinks? [⟨left, key⟩] right = some q ∧ q.header = p.header ∧
      q.children = [left, right] ∧ q.separators = [key] := by
  have hle : 1 ≤ internalCapacity := by decide
  obtain ⟨q, hq⟩ : ∃ q, p.setLinks? [⟨left, key⟩] right = some q := ⟨_, if_pos hle⟩
  exact ⟨q, hq, Page.header_setLinks? hq, Page.children_of_setLinks? hq,
    Page.separators_of_setLinks? hq⟩

/-- Adopting the subtrees of a node, which has been copied to page `id`. -/
theorem adopt_copy_run {kind : NodeKind} {p q : Page} (hs : s.Sound) (h : Held s.view root up t)
    (hkind : q.tag = kind.tag) (hn : View.node? s.view t.id = some (kind, p)) (hbody : q.SameBody p)
    (hnd : t.pages.Nodup) (id : PageId) :
    ∃ s', Tree.adopt id q s = (.ok (), s') ∧ Changed (t.kids.map PageTree.id) 0 s s' ∧
      ∀ k ∈ t.kids, Held s'.view root (some id) k := by
  have hq : q.kind = .ok kind := Page.ofTag_eq_ok_iff.mpr hkind
  rw [PageTree.pages_eq_cons, List.nodup_cons] at hnd
  unfold Tree.adopt
  rw [hq]
  cases h with
  | leaf hn' =>
    rw [PageTree.id_leaf, hn'] at hn
    cases hn
    exact ⟨s, rfl, .of_seen hs (.refl s), fun _ hk => absurd hk List.not_mem_nil⟩
  | @branch _ _ kids _ hn' _ hc _ hk =>
    rw [PageTree.id_branch, hn'] at hn
    cases hn
    obtain ⟨s', hrun, hch, hkids⟩ := adopt_run hs id (fun k hmem => ⟨_, hk k hmem⟩) hnd.2
    refine ⟨s', ?_, hch, hkids⟩
    have hcount : q.count ≤ internalCapacity := by
      rw [hbody.count]
      exact View.count_le hn'
    dsimp only
    rw [Page.children?_eq hcount, bind_ok (need_some_apply _ _), hbody.children, hc]
    exact hrun

/-- Page `id` stands for a branch above these subtrees, whether or not they are there. -/
def Topped (m : View) (root : PageId) (up : Option PageId) (id : PageId) (kids : List PageTree) :
    Prop :=
  ∃ q, m.node? id = some (.internal, q) ∧ q.Placed root up id ∧
    q.children = kids.map PageTree.id ∧
    q.separators.map some = kids.dropLast.map PageTree.greatest?

namespace Topped

variable {m m' : View}

theorem of_written {q : Page} {d : Bool} (hv : m id = some ⟨q, d⟩)
    (htag : q.tag = NodeKind.internal.tag) (hp : q.Placed root up id)
    (hcap : kids.length ≤ internalCapacity + 1) (hc : q.children = kids.map PageTree.id)
    (hseps : q.separators.map some = kids.dropLast.map PageTree.greatest?) :
    Topped m root up id kids := by
  have hcount := Page.count_of_children hc
  have hle : q.count ≤ internalCapacity := by omega
  exact ⟨q, View.node?_eq_some_iff.mpr ⟨⟨d, hv⟩, htag, hle⟩, hp, hc, hseps⟩

theorem congr (h : Topped m root up id kids) (hm : m' id = m id) : Topped m' root up id kids := by
  obtain ⟨q, hn, h⟩ := h
  exact ⟨q, by rw [View.node?_congr hm, hn], h⟩

/-- The branch is held if its subtrees are. -/
theorem held (h : Topped m root up id kids) (hk : ∀ k ∈ kids, Held m root (some id) k) :
    Held m root up (.branch id kids) := by
  obtain ⟨q, hn, hp, hc, hseps⟩ := h
  exact .branch hn hp hc hseps hk

end Topped

/-- The root's node is copied to the first page that is not in use, and its subtrees are adopted
there. -/
theorem copy_run {kind : NodeKind} {p : Page} (hs : s.Sound) (hroom : s.count < maxPages)
    (h : Held s.view root none t) (hid : t.id = root) (hn : s.view.node? t.id = some (kind, p))
    (hnd : t.pages.Nodup) :
    ∃ s', (do
        edit (PageId.ofIndex s.count) fun _ => some ((p.setRoot false).setParent root)
        Tree.adopt (PageId.ofIndex s.count) ((p.setRoot false).setParent root)) s = (.ok (), s') ∧
      Changed (PageId.ofIndex s.count :: t.kids.map PageTree.id) 1 s s' ∧
      Held s'.view root (some root) (t.moveTo (PageId.ofIndex s.count)) := by
  obtain ⟨s₁, hrun₁, hch₁, hview₁⟩ := edit_fresh hs hroom
    (g := fun _ => some ((p.setRoot false).setParent root)) rfl
  have hfresh := h.fresh_notMem hs hroom
  generalize PageId.ofIndex s.count = new at hrun₁ hch₁ hview₁ hfresh ⊢
  have hne : new ≠ root := fun heq => hfresh (heq ▸ hid ▸ t.id_mem_pages)
  have hbody : ((p.setRoot false).setParent root).SameBody p :=
    (Page.sameBody_setParent _ _).trans (Page.sameBody_setRoot _ _)
  have htag : ((p.setRoot false).setParent root).tag = p.tag := by
    rw [Page.tag_setParent, Page.tag_setRoot]
  have h₁ : Held s₁.view root none t := hch₁.held h fun id hmem hid =>
    hfresh (List.mem_singleton.mp hid ▸ hmem)
  have hn₁ : s₁.view.node? t.id = some (kind, p) := by
    rw [View.node?_congr (hch₁.frame fun hmem => ?_), hn]
    exact hfresh (List.mem_singleton.mp hmem ▸ t.id_mem_pages)
  have hkind : ((p.setRoot false).setParent root).tag = kind.tag :=
    htag.trans (View.node?_eq_some_iff.mp hn).2.1
  obtain ⟨s₂, hrun₂, hch₂, hkids₂⟩ := adopt_copy_run hch₁.sound h₁ hkind hn₁ hbody hnd new
  refine ⟨s₂, by rw [bind_ok hrun₁, hrun₂], hch₁.trans hch₂, ?_⟩
  have hview₂ : s₂.view new = some { page := (p.setRoot false).setParent root, dirty := true } := by
    rw [hch₂.frame fun hmem => hfresh ?_, hview₁]
    rw [PageTree.pages_eq_cons]
    exact List.mem_cons_of_mem _ ((PageTree.map_id_sublist _).subset hmem)
  exact h₁.moved hn₁ hview₂ hbody htag (.below_root p hne) hkids₂

/-- The root's page becomes the branch above two subtrees, the second of which is adopted. -/
theorem crown_run {T : Tree} {l r : PageTree} {g : Key} {old : Frame} (hs : s.Sound)
    (hv : s.view T.root = some old) (hlt : T.root.index < s.count)
    (hl : Held s.view T.root (some T.root) l) (hr : Held s.view T.root up r)
    (hg : l.greatest? = some g) (hnd : (T.root :: (l.pages ++ r.pages)).Nodup) :
    ∃ s', T.crown l.id r.id g s = (.ok (), s') ∧ Changed [T.root, r.id] 0 s s' ∧
      Held s'.view T.root none (.branch T.root [l, r]) := by
  rw [List.nodup_cons, List.mem_append, not_or] at hnd
  obtain ⟨⟨hrootl, hrootr⟩, hnd⟩ := hnd
  have hdisj := (List.nodup_append.mp hnd).2.2
  have hne : r.id ≠ T.root := fun heq => hrootr (heq ▸ r.id_mem_pages)
  obtain ⟨q, hq, hheader, hchildren, hseps⟩ :=
    setLinks?_pair ((Page.empty .internal).setRoot true) l.id r.id g
  obtain ⟨s₁, hrun₁, hch₁, hview₁⟩ := edit_known hs hlt hv
    (g := fun _ => ((Page.empty .internal).setRoot true).setLinks? [⟨l.id, g⟩] r.id) hq
  have hr₁ : Held s₁.view T.root up r := hch₁.held hr fun id hmem hid =>
    hrootr (List.mem_singleton.mp hid ▸ hmem)
  obtain ⟨s₂, hrun₂, hch₂, hr₂⟩ := edit_top_run (g := fun p => (p.setRoot false).setParent T.root)
    hch₁.sound hr₁ (fun p => (Page.sameBody_setParent _ _).trans (Page.sameBody_setRoot _ _))
    (fun p => by rw [Page.tag_setParent, Page.tag_setRoot]) fun p _ => .below_root p hne
  have hch : Changed [T.root, r.id] 0 s s₂ := hch₁.trans hch₂
  refine ⟨s₂, (bind_ok hrun₁).trans hrun₂, hch, ?_⟩
  rw [Page.header_setRoot] at hheader
  have htag : q.tag = NodeKind.internal.tag := (congrArg Prod.fst hheader).trans
    (Page.tag_empty .internal)
  have hisRoot : q.isRoot = true := congrArg (fun h => h.2.1) hheader
  have htop : Topped s₁.view T.root none T.root [l, r] := by
    refine .of_written hview₁ htag ⟨by rw [hisRoot, decide_eq_true rfl], fun hup => by cases hup⟩
      (show 2 ≤ internalCapacity + 1 by decide) hchildren ?_
    rw [hseps]
    simp [hg]
  refine (htop.congr (hch₂.frame (by simpa using hne.symm))).held
    (List.forall_mem_cons.mpr ⟨?_, List.forall_mem_singleton.mpr hr₂⟩)
  refine hch.held hl fun id hmem hid => ?_
  simp only [List.mem_cons, List.not_mem_nil, or_false] at hid
  rcases hid with rfl | rfl
  · exact hrootl hmem
  · exact hdisj _ hmem _ r.id_mem_pages rfl

/-- **The root's node moves** to the first page that is not in use. -/
theorem moveRoot_run {T : Tree} (hs : s.Sound) (hroom : s.count < maxPages) (hid : t.id = T.root)
    (h : Held s.view T.root none t) (hnd : t.pages.Nodup) :
    ∃ s', T.moveRoot s = (.ok (.ofIndex s.count), s') ∧
      Changed (.ofIndex s.count :: t.kids.map PageTree.id) 1 s s' ∧
      Held s'.view T.root (some T.root) (t.moveTo (.ofIndex s.count)) := by
  obtain ⟨kind, p, hn, -⟩ := h.node
  obtain ⟨⟨d, hv⟩, -⟩ := View.node?_eq_some_iff.mp hn
  have halloc : allocate s = (.ok (.ofIndex s.count), s) := rfl
  -- The old root is read, and its copy written.
  have hseen : s.Seen (s.fetched T.root) := .node (hid ▸ hn)
  obtain ⟨hs₀, hcount₀⟩ := hseen.sound hs
  rw [← hseen.view] at h hn
  obtain ⟨s', hrun, hch, hcopy⟩ := copy_run hs₀ (by rwa [hcount₀]) h hid hn hnd
  rw [hcount₀] at hrun hch hcopy
  refine ⟨s', ?_, (Changed.of_seen hs hseen).trans hch, hcopy⟩
  unfold Tree.moveRoot
  rw [bind_ok halloc, ← hid, bind_ok (fetch_run hv), hid]
  dsimp only
  rw [← bind_assoc, bind_ok hrun, pure_apply]

/-- **A new root.** The old root's node moves to the first page that is not in use. -/
theorem raiseRoot_run {T : Tree} {l r : PageTree} (hs : s.Sound) (hroom : s.count < maxPages)
    (hid : l.id = T.root) (hl : Held s.view T.root none l) (hr : Held s.view T.root up r)
    (hw : l.Within f false) (hnd : (l.pages ++ r.pages).Nodup) :
    ∃ s', T.raiseRoot r.id s = (.ok (), s') ∧
      Changed (.ofIndex s.count :: (l.kids.map PageTree.id ++ [T.root, r.id])) 1 s s' ∧
      Held s'.view T.root none (.branch T.root [l.moveTo (.ofIndex s.count), r]) := by
  obtain ⟨kind, p, hn, -⟩ := hl.node
  obtain ⟨⟨d, hv⟩, -⟩ := View.node?_eq_some_iff.mp hn
  have hnewl := hl.fresh_notMem hs hroom
  have hnewr := hr.fresh_notMem hs hroom
  obtain ⟨s₁, hrun₁, hch₁, hcopy₁⟩ := moveRoot_run hs hroom hid hl (List.nodup_append.mp hnd).1
  obtain ⟨g, hg⟩ := Option.isSome_iff_exists.mp (PageTree.greatest?_isSome hw.cells_ne_nil)
  have hgcopy : (l.moveTo (.ofIndex s.count)).greatest? = some g := by
    rw [PageTree.greatest?, PageTree.keys_moveTo]
    exact hg
  obtain ⟨s₂, hseen₂, hrun₂⟩ := Tree.greatest_run hcopy₁ (hw.moveTo _) hgcopy
  rw [PageTree.id_moveTo] at hrun₂
  -- The old root page becomes the new root, which names the copy and `r`.
  have hch₂ := hch₁.seen hseen₂
  rw [← hseen₂.view] at hcopy₁
  rw [PageTree.pages_eq_cons, hid, List.cons_append, List.nodup_cons, List.mem_append, not_or]
    at hnd
  rw [PageTree.pages_eq_cons, hid, List.mem_cons, not_or] at hnewl
  have hkids : ∀ id ∈ l.kids.map PageTree.id, id ∈ l.kids.flatMap PageTree.pages := fun id hmem =>
    (PageTree.map_id_sublist _).subset hmem
  have hv₂ : s₂.view T.root = some ⟨p, d⟩ := by
    rw [hch₂.frame fun hmem => ?_, ← hid, hv]
    rw [List.mem_cons] at hmem
    exact hmem.elim (Ne.symm hnewl.1) fun hmem => hnd.1.1 (hkids _ hmem)
  have hr₂ : Held s₂.view T.root up r := hch₂.held hr fun id hmem hid' => by
    rw [List.mem_cons] at hid'
    rcases hid' with rfl | hid'
    · exact hnewr hmem
    · exact (List.nodup_append.mp hnd.2).2.2 _ (hkids _ hid') _ hmem rfl
  have hlt₂ : T.root.index < s₂.count := by
    have := hl.index_lt_count hs (hid ▸ l.id_mem_pages)
    have := hch₂.count
    omega
  have hnd₂ : (T.root :: ((l.moveTo (.ofIndex s.count)).pages ++ r.pages)).Nodup := by
    rw [PageTree.pages_moveTo, List.cons_append, List.nodup_cons, List.nodup_cons, List.mem_cons,
      List.mem_append, List.mem_append, not_or, not_or, not_or]
    exact ⟨⟨Ne.symm hnewl.1, hnd.1⟩, ⟨hnewl.2, hnewr⟩, hnd.2⟩
  obtain ⟨s₃, hrun₃, hch₃, hheld₃⟩ := crown_run hch₂.sound hv₂ hlt₂ hcopy₁ hr₂ hgcopy hnd₂
  rw [PageTree.id_moveTo] at hrun₃
  refine ⟨s₃, ?_, hch₂.trans hch₃, hheld₃⟩
  rw [Tree.raiseRoot_eq, bind_ok hrun₁, bind_ok hrun₂, hrun₃]

/-! ## Two branches from one -/

/-- The separators of some of the first subtrees, and of the last ones. -/
theorem separators_take {keys : List Key} (h : keys.map some = kids.dropLast.map PageTree.greatest?)
    {half : Nat} (hhalf : half ≤ kids.length) :
    (keys.take (half - 1)).map some = (kids.take half).dropLast.map PageTree.greatest? := by
  rw [List.map_take, h, ← List.map_take, List.dropLast_eq_take, List.dropLast_eq_take,
    List.take_take, List.take_take, List.length_take]
  congr 2
  omega

theorem separators_drop {keys : List Key} (h : keys.map some = kids.dropLast.map PageTree.greatest?)
    (half : Nat) :
    (keys.drop half).map some = (kids.drop half).dropLast.map PageTree.greatest? := by
  rw [List.map_drop, h, ← List.map_drop, List.dropLast_drop_eq_drop_dropLast]

/-- Of the separators those of the first subtrees and those of the others are left. The one between
them is the greatest key of the first subtrees. -/
theorem separators_append {keys lower upper : List Key} {lows ups : List PageTree} {g : Key}
    (i : PageId) (h : keys.map some = (lows ++ ups).dropLast.map PageTree.greatest?)
    (hlower : lower.map some = lows.dropLast.map PageTree.greatest?)
    (hupper : upper.map some = ups.dropLast.map PageTree.greatest?)
    (hcells : ∀ k ∈ lows, k.cells ≠ []) (hups : ups ≠ [])
    (hg : (PageTree.branch i lows).greatest? = some g) : keys = lower ++ g :: upper := by
  rcases List.eq_nil_or_concat' lows with rfl | ⟨init, k, rfl⟩
  · simp [PageTree.greatest?] at hg
  · rw [PageTree.greatest?_branch i init (hcells k (by simp))] at hg
    refine (List.map_inj_right fun _ _ => Option.some.inj).mp ?_
    rw [List.map_append, List.map_cons, h, hlower, hupper, ← hg, List.dropLast_concat,
      List.dropLast_append_of_ne_nil hups]
    simp

/-- Subtrees are shared out between two parents. -/
theorem share_run {lower upper : List PageTree} (hs : s.Sound) (q r : PageId)
    (h : ∀ k ∈ lower ++ upper, ∃ up, Held s.view root up k)
    (hnd : ((lower ++ upper).flatMap PageTree.pages).Nodup) :
    ∃ s', (do
        (lower.map PageTree.id).forM (Tree.setParent q)
        (upper.map PageTree.id).forM (Tree.setParent r)) s = (.ok (), s') ∧
      Changed ((lower ++ upper).map PageTree.id) 0 s s' ∧
      (∀ k ∈ lower, Held s'.view root (some q) k) ∧ ∀ k ∈ upper, Held s'.view root (some r) k := by
  rw [List.flatMap_append, List.nodup_append] at hnd
  obtain ⟨hndl, hndu, hdisj⟩ := hnd
  rw [List.forall_mem_append] at h
  have hpages : ∀ {k : PageTree} {ks : List PageTree} {j : PageId}, k ∈ ks → j ∈ k.pages →
      j ∈ ks.flatMap PageTree.pages := fun hk hj => List.mem_flatMap.mpr ⟨_, hk, hj⟩
  have hids : ∀ {ks : List PageTree} {j : PageId}, j ∈ ks.map PageTree.id →
      j ∈ ks.flatMap PageTree.pages := fun hj => (PageTree.map_id_sublist _).subset hj
  obtain ⟨s₁, hrun₁, hch₁, hlower⟩ := adopt_run hs q h.1 hndl
  have hupper : ∀ k ∈ upper, ∃ up, Held s₁.view root up k := fun k hk => by
    obtain ⟨up, hheld⟩ := h.2 k hk
    exact ⟨up, hch₁.held hheld fun j hj hj' => hdisj j (hids hj') j (hpages hk hj) rfl⟩
  obtain ⟨s₂, hrun₂, hch₂, hupper⟩ := adopt_run hch₁.sound r hupper hndu
  refine ⟨s₂, by rw [bind_ok hrun₁, hrun₂], ?_, fun k hk => ?_, hupper⟩
  · rw [List.map_append]
    exact hch₁.trans hch₂
  · exact hch₂.held (hlower k hk) fun j hj hj' => hdisj j (hpages hk hj) j (hids hj') rfl

/-- The upper half of some subtrees is written to the first page that is not in use, then the lower
half to page `id`. -/
theorem write_halves_run {keys : List Key} {p : Page} {half : Nat} (hs : s.Sound)
    (hroom : s.count < maxPages) (hn : s.view.node? id = some (.internal, p))
    (hp : p.Placed root up id) (hroot : root.index < s.count)
    (hkeys : keys.map some = kids.dropLast.map PageTree.greatest?)
    (hlower : 0 < half ∧ half ≤ internalCapacity + 1)
    (hupper : half < kids.length ∧ kids.length - half ≤ internalCapacity + 1) :
    ∃ s', (do
        edit (PageId.ofIndex s.count) fun _ => ((Page.empty .internal).setParent p.parent).setLinks?
          (List.zipWith Link.mk ((kids.drop half).map PageTree.id).dropLast (keys.drop half))
          (((kids.drop half).map PageTree.id).getLastD id)
        edit id fun p => p.setLinks?
          (List.zipWith Link.mk ((kids.take half).map PageTree.id).dropLast keys)
          (((kids.take half).map PageTree.id).getLastD id)) s = (.ok (), s') ∧
      Changed [PageId.ofIndex s.count, id] 1 s s' ∧
      Topped s'.view root up id (kids.take half) ∧
      Topped s'.view root up (PageId.ofIndex s.count) (kids.drop half) := by
  have hkeyslen : keys.length + 1 = kids.length := by
    have := congrArg List.length hkeys
    rw [List.length_map, List.length_map, List.length_dropLast] at this
    omega
  have hlower' : (kids.take half).length = half := by
    rw [List.length_take]
    omega
  have hupper' : (kids.drop half).length = kids.length - half := List.length_drop
  have hupperne : (kids.drop half).map PageTree.id ≠ [] :=
    List.ne_nil_of_length_pos (by rw [List.length_map]; omega)
  have hupperkeys : ((kids.drop half).map PageTree.id).length ≤ (keys.drop half).length + 1 := by
    rw [List.length_map, List.length_drop, List.length_drop]
    omega
  obtain ⟨q₁, hq₁, hheader₁, hchildren₁, hseps₁⟩ :=
    Page.setLinks?_zip ((Page.empty .internal).setParent p.parent) id hupperne hupperkeys
      (by rw [List.length_map]; omega)
  have hlowerne : (kids.take half).map PageTree.id ≠ [] :=
    List.ne_nil_of_length_pos (by rw [List.length_map]; omega)
  have hlowerkeys : ((kids.take half).map PageTree.id).length ≤ keys.length + 1 := by
    rw [List.length_map]
    omega
  obtain ⟨q₂, hq₂, hheader₂, hchildren₂, hseps₂⟩ :=
    Page.setLinks?_zip p id hlowerne hlowerkeys (by rw [List.length_map]; omega)
  obtain ⟨⟨d, hv⟩, htag, -⟩ := View.node?_eq_some_iff.mp hn
  have hlt := hs.index_lt_count hn
  obtain ⟨s', hrun, hch, hview₁, hview₂⟩ := edit_fresh_known hs hroom hlt hv
    (g := fun _ => ((Page.empty .internal).setParent p.parent).setLinks? (List.zipWith Link.mk
      ((kids.drop half).map PageTree.id).dropLast (keys.drop half))
      (((kids.drop half).map PageTree.id).getLastD id))
    (e := fun p => p.setLinks? (List.zipWith Link.mk ((kids.take half).map PageTree.id).dropLast
      keys) (((kids.take half).map PageTree.id).getLastD id)) hq₁ hq₂
  have hnewroot : PageId.ofIndex s.count ≠ root := fun heq => by
    rw [← heq, index_fresh hroom] at hroot
    exact Nat.lt_irrefl _ hroot
  refine ⟨s', hrun, hch, ?_, ?_⟩
  · have htag₂ := (Page.header_eq_iff.mp hheader₂).1
    refine .of_written hview₂ (htag₂.trans htag) (hp.of_header hheader₂) (by omega) hchildren₂ ?_
    rw [hseps₂, List.length_map, hlower']
    exact separators_take hkeys (by omega)
  · obtain ⟨htag₁, hplaced₁⟩ := hp.of_fresh hnewroot hheader₁
    refine .of_written hview₁ htag₁ hplaced₁ (by omega) hchildren₁ ?_
    rw [hseps₁, List.length_map, hupper', List.take_of_length_le (by rw [List.length_drop]; omega)]
    exact separators_drop hkeys half

/-- **A branch that is split.** The lower half of its subtrees, rounded up, stays on its page, the
others move to the first page that is not in use. -/
theorem splitInternal_run {keys : List Key} {p : Page} (hs : s.Sound) (hroom : s.count < maxPages)
    (hn : s.view.node? id = some (.internal, p)) (hp : p.Placed root up id)
    (hroot : root.index < s.count) (hkeys : keys.map some = kids.dropLast.map PageTree.greatest?)
    (hlen : 2 ≤ kids.length) (hcap : kids.length ≤ internalCapacity + 2)
    (hk : ∀ k ∈ kids, ∃ up, Held s.view root up k)
    (hnd : (id :: kids.flatMap PageTree.pages).Nodup) :
    ∃ s', Tree.splitInternal id p.parent keys (kids.map PageTree.id) s =
        (.ok (PageId.ofIndex s.count), s') ∧
      Changed (PageId.ofIndex s.count :: id :: kids.map PageTree.id) 1 s s' ∧
      Held s'.view root up (.branch id (kids.take ((kids.length + 1) / 2))) ∧
      Held s'.view root up
        (.branch (PageId.ofIndex s.count) (kids.drop ((kids.length + 1) / 2))) := by
  generalize hhalf : (kids.length + 1) / 2 = half
  have hsplit : kids.take half ++ kids.drop half = kids := List.take_append_drop half kids
  have hcapacity : 1 ≤ internalCapacity := by decide
  have hrequire : keys.length + 1 = (kids.map PageTree.id).length ∧
      2 ≤ (kids.map PageTree.id).length := by
    have := congrArg List.length hkeys
    rw [List.length_map, List.length_map, List.length_dropLast] at this
    rw [List.length_map]
    omega
  have halloc : allocate s = (.ok (PageId.ofIndex s.count), s) := rfl
  have hnewkids : ∀ k ∈ kids, PageId.ofIndex s.count ∉ k.pages := fun k hmem => by
    obtain ⟨up, hheld⟩ := hk k hmem
    exact hheld.fresh_notMem hs hroom
  have hfit : (0 < half ∧ half ≤ internalCapacity + 1) ∧
      half < kids.length ∧ kids.length - half ≤ internalCapacity + 1 := by omega
  obtain ⟨s₁, hrun₁, hch₁, hlower₁, hupper₁⟩ :=
    write_halves_run hs hroom hn hp hroot hkeys hfit.1 hfit.2
  generalize PageId.ofIndex s.count = new at hrun₁ hch₁ hupper₁ halloc hnewkids ⊢
  rw [List.nodup_cons] at hnd
  have hidkids : ∀ k ∈ kids, id ∉ k.pages := fun k hmem hid =>
    hnd.1 (List.mem_flatMap.mpr ⟨k, hmem, hid⟩)
  have hk₁ : ∀ k ∈ kids, ∃ up, Held s₁.view root up k := fun k hmem => by
    obtain ⟨up, hheld⟩ := hk k hmem
    refine ⟨up, hch₁.held hheld fun j hj hj' => ?_⟩
    simp only [List.mem_cons, List.not_mem_nil, or_false] at hj'
    rcases hj' with rfl | rfl
    · exact hnewkids k hmem hj
    · exact hidkids k hmem hj
  -- Both halves are adopted, which leaves the two pages themselves alone.
  obtain ⟨s₂, hrun₂, hch₂, hlower₂, hupper₂⟩ := share_run hch₁.sound id new
    (by rwa [hsplit]) (by rw [hsplit]; exact hnd.2)
  rw [hsplit] at hch₂
  have hkept : ∀ j, (∀ k ∈ kids, j ∉ k.pages) → s₂.view j = s₁.view j := fun j hj =>
    hch₂.frame fun hmem => by
      obtain ⟨k, hk, rfl⟩ := List.mem_map.mp hmem
      exact hj k hk k.id_mem_pages
  refine ⟨s₂, ?_, hch₁.trans hch₂, (hlower₁.congr (hkept id hidkids)).held hlower₂,
    (hupper₁.congr (hkept new hnewkids)).held hupper₂⟩
  unfold Tree.splitInternal
  rw [bind_ok (require_apply_of hrequire s), List.length_map, hhalf, ← List.map_take,
    ← List.map_drop, bind_ok halloc, ← bind_assoc, bind_ok hrun₁, ← bind_assoc, bind_ok hrun₂,
    pure_apply]

/-! ## Hooking in -/

/-- **A tree with a subtree split.** In the place of `t` the page stands for `l` alone, and the
pages of `r` are held but nothing leads to them yet. The pages around are as `m` shows them. -/
structure Torn (T : Tree) (m : View) (cs : List Crumb) (t l r : PageTree) (s : Pager) : Prop where
  sound : s.Sound
  old : Held m T.root none (plug cs t)
  root_eq : (plug cs t).id = T.root
  frame : ∀ id ∈ Crumb.pages cs, s.view id = m id
  left_id : l.id = t.id
  left : Held s.view T.root (Crumb.up cs) l
  right : Held s.view T.root (Crumb.up cs) r
  greatest : r.greatest? = t.greatest? ∨ Rightmost cs
  nodup : (Crumb.pages cs ++ (l.pages ++ r.pages)).Nodup

namespace Torn

variable {T : Tree} {m : View} {c : Crumb} {cs : List Crumb} {t l r : PageTree}

/-- Loading nodes changes nothing. -/
theorem seen (h : Torn T m cs t l r s) (hseen : s.Seen s') : Torn T m cs t l r s' :=
  { h with
    sound := (hseen.sound h.sound).1
    frame := fun id hid => by rw [hseen.view, h.frame id hid]
    left := by rw [hseen.view]; exact h.left
    right := by rw [hseen.view]; exact h.right }

/-- All pages of the tree are in use. -/
theorem index_lt_count (h : Torn T m cs t l r s)
    (hid : id ∈ Crumb.pages cs ++ (l.pages ++ r.pages)) : id.index < s.count := by
  rcases List.mem_append.mp hid with hid | hid
  · have hmem : id ∈ (plug cs t).pages :=
      (PageTree.pages_plug cs t).mem_iff.mpr (List.mem_append_right _ hid)
    obtain ⟨⟨kind, p⟩, hn⟩ := Option.isSome_iff_exists.mp (h.old.unfolds.isSome_of_mem_pages hmem)
    rw [← View.node?_congr (h.frame id hid)] at hn
    exact h.sound.index_lt_count hn
  · rcases List.mem_append.mp hid with hid | hid
    · exact h.left.index_lt_count h.sound hid
    · exact h.right.index_lt_count h.sound hid

/-- The root's page is among the pages around, if there are any. -/
theorem root_mem (h : Torn T m (c :: cs) t l r s) : T.root ∈ Crumb.pages (c :: cs) := by
  rw [← h.root_eq]
  exact PageTree.id_plug_mem

/-- The page above the two halves, which still names only the lower one. -/
theorem parent (h : Torn T m (c :: cs) t l r s) :
    ∃ p, s.view.node? c.id = some (.internal, p) ∧ p.Placed T.root (Crumb.up cs) c.id ∧
      p.children = c.before.map PageTree.id ++ l.id :: c.after.map PageTree.id ∧
      p.count = c.beside.length ∧
      p.separators.map some = (c.before ++ [t] ++ c.after).dropLast.map PageTree.greatest? ∧
      ∀ k ∈ c.before ++ [l, r] ++ c.after, Held s.view T.root (some c.id) k := by
  have hframe := h.frame
  rw [pages_cons, List.cons_append, List.forall_mem_cons, List.forall_mem_append] at hframe
  obtain ⟨hc, hbeside, -⟩ := hframe
  have hbranch : Held m T.root (Crumb.up cs) (c.around [t]) := Held.of_plug h.old
  cases hbranch with
  | @branch _ _ _ p hn hp hch hseps hk =>
    refine ⟨p, by rw [View.node?_congr hc, hn], hp, ?_, ?_, hseps, ?_⟩
    · rw [hch, h.left_id]
      simp
    · have hlen := Page.count_of_children hch
      rw [length_around, List.length_singleton, Nat.add_comm] at hlen
      exact Nat.add_left_cancel hlen
    · have hheld : ∀ k ∈ c.beside, Held s.view T.root (some c.id) k := fun k hmem =>
        (hk k (by grind [Crumb.beside])).congr fun id hid =>
          hbeside id (List.mem_flatMap.mpr ⟨k, hmem, hid⟩)
      intro k hmem
      simp only [List.mem_append, List.mem_cons, List.not_mem_nil, or_false] at hmem
      rcases hmem with (hmem | rfl | rfl) | hmem
      · exact hheld k (List.mem_append_left _ hmem)
      · exact h.left
      · exact h.right
      · exact hheld k (List.mem_append_right _ hmem)

end Torn

/-- The separators of a branch with a subtree split: that of the lower half is put in before the one
that stood for the whole, which stands for the upper half now. -/
theorem separators_insert {seps : List Key} {before after : List PageTree} {t l r : PageTree}
    {key : Key} (h : seps.map some = (before ++ [t] ++ after).dropLast.map PageTree.greatest?)
    (hl : l.greatest? = some key) (hr : r.greatest? = t.greatest? ∨ after = []) :
    (seps.insertIdx before.length key).map some =
      (before ++ [l, r] ++ after).dropLast.map PageTree.greatest? := by
  have hlen : (before.map PageTree.greatest?).length = before.length := List.length_map _
  have hdrop : ∀ inner : List PageTree, inner ≠ [] → (before ++ inner ++ after).dropLast =
      before ++ (inner ++ after).dropLast := fun inner hne => by
    rw [List.append_assoc, List.dropLast_append_of_ne_nil (by simp [hne])]
  rw [List.map_insertIdx, h, hdrop [t] (by simp), hdrop [l, r] (by simp), List.map_append,
    List.map_append, ← hlen, insertIdx_append, ← hl]
  cases after with
  | nil => rfl
  | cons a after => simp [hr.resolve_right (List.cons_ne_nil a after)]

section

variable {T : Tree} {m : View} {c : Crumb} {cs : List Crumb} {t l r : PageTree} {fuel : Nat}
  {p : Page} {key : Key}

/-- The children of a branch with the upper half put in behind the lower one. -/
theorem children_insert {children : List PageId}
    (h : children = c.before.map PageTree.id ++ l.id :: c.after.map PageTree.id) :
    children.insertIdx (c.before.length + 1) r.id =
      (c.before ++ [l, r] ++ c.after).map PageTree.id := by
  have hlen : (c.before.map PageTree.id ++ [l.id]).length = c.before.length + 1 := by simp
  rw [h, ← List.singleton_append, ← List.append_assoc, ← hlen, insertIdx_append]
  simp

theorem Torn.left_eq_root (h : Torn T m [] t l r s) : l.id = T.root := by
  rw [h.left_id, ← h.root_eq]
  rfl

theorem Torn.left_ne_root (h : Torn T m (c :: cs) t l r s) : l.id ≠ T.root := fun heq =>
  (List.nodup_append.mp h.nodup).2.2 _ h.root_mem _
    (List.mem_append_left _ (heq ▸ l.id_mem_pages)) rfl

/-- **The last round of hooking in**, if nothing stopped it before, splits the root. -/
theorem hooking_top (h : Torn T m [] t l r s) :
    ∃ s', s.Seen s' ∧ T.hooking.round (l.id, r.id) s = (do
      T.raiseRoot r.id
      return Sum.inl ()) s' := by
  obtain ⟨kind, p, hn, hisRoot⟩ := h.left.node_of_eq_root h.left_eq_root
  obtain ⟨s', hseen, hrun⟩ := node_seen hn
  refine ⟨s', hseen, ?_⟩
  dsimp only [Tree.hooking]
  rw [bind_ok hrun]
  dsimp only
  rw [if_pos hisRoot]

theorem hook_top (fuel : Nat) (h : Torn T m [] t l r s) :
    ∃ s', s.Seen s' ∧ T.hook (fuel + 1) l.id r.id s = T.raiseRoot r.id s' := by
  obtain ⟨s', hseen, hround⟩ := hooking_top h
  refine ⟨s', hseen, (Loop.walk_of_round hround).trans ?_⟩
  simp only [bind_assoc, pure_bind, proceed, bind_pure_unit]

/-- A round of hooking in asks for the greatest key below the lower half. -/
theorem asking_below (h : Torn T m (c :: cs) t l r s) :
    ∃ s', s.Seen s' ∧ T.asking l.id s = (.ok (l.id, some c.id), s') := by
  obtain ⟨kind, p, hn, hisRoot, hparent⟩ := h.left.node_of_ne_root h.left_ne_root
  obtain ⟨s', hseen, hrun⟩ := node_seen hn
  refine ⟨s', hseen, ?_⟩
  unfold Tree.asking
  rw [bind_ok hrun]
  dsimp only
  rw [if_neg hisRoot, hparent, pure_apply]

/-- **One round of hooking in** reads the nodes around, and then goes by the room in the branch. -/
theorem hooking_step (h : Torn T m (c :: cs) t l r s) (hl : l.Within f false) :
    ∃ s' p key, s.Seen s' ∧ s'.view.node? c.id = some (.internal, p) ∧ l.greatest? = some key ∧
      T.hooking.round (l.id, r.id) s =
        (if c.beside.length < T.config.internalMax then do
          edit c.id fun q => (q.insertLink? c.before.length ⟨l.id, key⟩).bind fun q =>
            q.setChild? (c.before.length + 1) r.id
          Tree.setParent c.id r.id
          return Sum.inl ()
        else do
          let new ← Tree.splitInternal c.id p.parent (p.separators.insertIdx c.before.length key)
            ((c.before ++ [l, r] ++ c.after).map PageTree.id)
          return Sum.inr (c.id, new)) s' := by
  obtain ⟨s₁, hseen₁, hrun₁⟩ := asking_below h
  have h₁ := h.seen hseen₁
  obtain ⟨key, hkey⟩ := Option.isSome_iff_exists.mp (PageTree.greatest?_isSome hl.cells_ne_nil)
  obtain ⟨s₂, hseen₂, hrun₂⟩ := Tree.greatest_run h₁.left hl hkey
  obtain ⟨p, hn, -, hchildren, hcount, -⟩ := (h₁.seen hseen₂).parent
  obtain ⟨s₃, hseen₃, hrun₃⟩ := node_seen hn
  refine ⟨s₃, p, key, (hseen₁.trans hseen₂).trans hseen₃, by rw [hseen₃.view, hn], hkey, ?_⟩
  have hnotMem : l.id ∉ c.before.map PageTree.id := fun hmem => by
    refine (List.nodup_append.mp h.nodup).2.2 l.id ?_ _ (List.mem_append_left _ l.id_mem_pages) rfl
    have hmem := (PageTree.map_id_sublist _).subset hmem
    rw [pages_cons, beside, List.flatMap_append]
    exact List.mem_cons_of_mem _ (List.mem_append_left _ (List.mem_append_left _ hmem))
  have hidx : p.children.idxOf? l.id = some c.before.length := by
    rw [hchildren, idxOf?_append_cons hnotMem, List.length_map]
  have hlen : p.separators.length = c.beside.length := by rw [Page.length_separators, hcount]
  have hinsert := children_insert (r := r) hchildren
  rw [Tree.hooking_round, bind_ok hrun₁, bind_ok hrun₂, Tree.settle, bind_ok hrun₃]
  dsimp only
  rw [Page.separators?_eq (View.count_le hn), bind_ok (need_some_apply _ _),
    Page.children?_eq (View.count_le hn), bind_ok (need_some_apply _ _), hidx]
  dsimp only
  have hle : c.before.length ≤ p.separators.length := by
    rw [hlen, beside, List.length_append]
    omega
  rw [bind_ok (require_apply_of hle _), List.length_insertIdx_of_le_length hle, hlen, hinsert]
  by_cases hroom : c.beside.length < T.config.internalMax
  · rw [if_pos hroom, if_pos (by omega)]
  · rw [if_neg hroom, if_neg (by omega)]

/-- Hooking in goes on from the branch if that was split. -/
theorem hook_step (fuel : Nat) (h : Torn T m (c :: cs) t l r s) (hl : l.Within f false) :
    ∃ s' p key, s.Seen s' ∧ s'.view.node? c.id = some (.internal, p) ∧ l.greatest? = some key ∧
      T.hook (fuel + 1) l.id r.id s =
        if c.beside.length < T.config.internalMax then
          (do
            edit c.id fun q => (q.insertLink? c.before.length ⟨l.id, key⟩).bind fun q =>
              q.setChild? (c.before.length + 1) r.id
            Tree.setParent c.id r.id) s'
        else
          (do
            let new ← Tree.splitInternal c.id p.parent (p.separators.insertIdx c.before.length key)
              ((c.before ++ [l, r] ++ c.after).map PageTree.id)
            T.hook fuel c.id new) s' := by
  obtain ⟨s', p, key, hseen, hn, hkey, hround⟩ := hooking_step (r := r) h hl
  refine ⟨s', p, key, hseen, hn, hkey, (Loop.walk_of_round hround).trans ?_⟩
  split
  · simp only [bind_assoc, pure_bind, proceed, bind_pure_unit]
  · simp only [bind_assoc, pure_bind, proceed]
    rfl

/-- The branch with both halves ends with the same key as it did, or no separator stands for it. -/
theorem Torn.greatest_around (h : Torn T m (c :: cs) t l r s) (hr : r.cells ≠ []) :
    (c.around [l, r]).greatest? = (c.around [t]).greatest? ∨ Rightmost cs := by
  refine h.greatest.imp (fun heq => PageTree.greatest?_around ?_) fun h => (rightmost_cons.mp h).2
  have hne : r.keys ≠ [] := by simpa [PageTree.keys] using hr
  simp only [List.flatMap_cons, List.flatMap_nil, List.append_nil]
  rw [List.getLast?_append_of_ne_nil _ hne]
  exact heq

/-- The separators of the branch with both halves. -/
theorem Torn.separators (h : Torn T m (c :: cs) t l r s)
    (hn : s.view.node? c.id = some (.internal, p)) (hkey : l.greatest? = some key) :
    (p.separators.insertIdx c.before.length key).map some =
      (c.before ++ [l, r] ++ c.after).dropLast.map PageTree.greatest? := by
  obtain ⟨p', hn', -, -, -, hseps, -⟩ := h.parent
  rw [hn] at hn'
  cases hn'
  exact separators_insert hseps hkey (h.greatest.imp_right fun h => (rightmost_cons.mp h).1)

/-- **The tree is whole again** once the page above names both halves. -/
theorem Torn.mended {s' : Pager} (h : Torn T m (c :: cs) t l r s)
    (hch : Changed [c.id, r.id] 0 s s') (hr : r.cells ≠ [])
    (htop : Topped s'.view T.root (Crumb.up cs) c.id (c.before ++ [l, r] ++ c.after))
    (hright : Held s'.view T.root (some c.id) r) :
    Held s'.view T.root none (plug cs (c.around [l, r])) := by
  obtain ⟨-, -, -, -, -, -, hkids⟩ := h.parent
  obtain ⟨hndc, hndlr, hdisj⟩ := List.nodup_append.mp h.nodup
  obtain ⟨-, -, hdisjlr⟩ := List.nodup_append.mp hndlr
  rw [pages_cons, List.cons_append, List.nodup_cons] at hndc
  have hcid : c.id ∈ Crumb.pages (c :: cs) := by simp
  -- All other pages of the tree look as before.
  have hother : ∀ id ∈ Crumb.pages (c :: cs) ++ l.pages, id ≠ c.id → s'.view id = s.view id := by
    intro id hid hne
    refine hch.frame fun hmem => ?_
    simp only [List.mem_cons, List.not_mem_nil, or_false] at hmem
    have hidr := hmem.resolve_left hne
    rcases List.mem_append.mp hid with hid | hid
    · exact hdisj _ hid _ (List.mem_append_right _ r.id_mem_pages) hidr
    · exact hdisjlr _ hid _ r.id_mem_pages hidr
  have hbeside : ∀ k ∈ c.beside, Held s.view T.root (some c.id) k →
      Held s'.view T.root (some c.id) k := by
    intro k hk hheld
    have hmem : ∀ id ∈ k.pages, id ∈ c.beside.flatMap PageTree.pages := fun id hid =>
      List.mem_flatMap.mpr ⟨k, hk, hid⟩
    refine hheld.congr fun id hid => hother id ?_ fun heq => ?_
    · rw [pages_cons]
      exact List.mem_append_left _ (List.mem_cons_of_mem _ (List.mem_append_left _ (hmem id hid)))
    · exact hndc.1 (List.mem_append_left _ (heq ▸ hmem id hid))
  have hbranch : Held s'.view T.root (Crumb.up cs) (c.around [l, r]) := by
    refine htop.held fun k hk => ?_
    have hheld := hkids k hk
    simp only [List.mem_append, List.mem_cons, List.not_mem_nil, or_false] at hk
    rcases hk with (hk | rfl | rfl) | hk
    · exact hbeside k (List.mem_append_left _ hk) hheld
    · refine hheld.congr fun id hid => hother id (List.mem_append_right _ hid) fun heq => ?_
      exact hdisj _ hcid _ (List.mem_append_left _ hid) heq.symm
    · exact hright
    · exact hbeside k (List.mem_append_right _ hk) hheld
  refine h.old.replace (t := c.around [t]) rfl (h.greatest_around hr) (fun id hid => ?_) hbranch
  have hidc : id ∈ Crumb.pages (c :: cs) := by
    rw [pages_cons]
    exact List.mem_append_right _ hid
  rw [hother id (List.mem_append_left _ hidc) fun heq => ?_, h.frame id hidc]
  exact hndc.1 (List.mem_append_right _ (heq ▸ hid))

/-- **Room in the branch.** The upper half is taken in beside the lower one. -/
theorem widen_run (h : Torn T m (c :: cs) t l r s)
    (hn : s.view.node? c.id = some (.internal, p)) (hkey : l.greatest? = some key)
    (hroom : c.beside.length < T.config.internalMax) (hr : r.cells ≠ []) :
    ∃ s', (do
        edit c.id fun q => (q.insertLink? c.before.length ⟨l.id, key⟩).bind fun q =>
          q.setChild? (c.before.length + 1) r.id
        Tree.setParent c.id r.id) s = (.ok (), s') ∧
      Changed [c.id, r.id] 0 s s' ∧ Held s'.view T.root none (plug cs (c.around [l, r])) := by
  have hseps := h.separators hn hkey
  obtain ⟨p', hn', hp, hchildren, hcount, -⟩ := h.parent
  rw [hn] at hn'
  cases hn'
  obtain ⟨⟨d, hv⟩, htag, -⟩ := View.node?_eq_some_iff.mp hn
  have hcap : T.config.internalMax ≤ internalCapacity := T.config.internalMax_le
  have hcr : c.id ∉ r.pages := fun hmem =>
    (List.nodup_append.mp h.nodup).2.2 c.id (by simp) _ (List.mem_append_right _ hmem) rfl
  obtain ⟨q, hq, hheader, hqchildren, hqseps⟩ :=
    Page.splice_child r.id key (by omega) hchildren (List.length_map _)
  obtain ⟨s₁, hrun₁, hch₁, hview₁⟩ := edit_known h.sound (h.sound.index_lt_count hn) hv
    (g := fun q => (q.insertLink? c.before.length ⟨l.id, key⟩).bind fun q =>
      q.setChild? (c.before.length + 1) r.id) hq
  have hr₁ : Held s₁.view T.root (Crumb.up (c :: cs)) r := hch₁.held h.right fun id hid hmem =>
    hcr (List.mem_singleton.mp hmem ▸ hid)
  obtain ⟨s₂, hrun₂, hch₂, hr₂⟩ := setParent_run hch₁.sound hr₁ c.id
  have hview₂ : s₂.view c.id = some { page := q, dirty := true } := by
    have hne : c.id ≠ r.id := fun heq => hcr (heq ▸ r.id_mem_pages)
    rw [hch₂.frame (by simpa using hne), hview₁]
  have htop : Topped s₂.view T.root (Crumb.up cs) c.id (c.before ++ [l, r] ++ c.after) := by
    have hqtag := (Page.header_eq_iff.mp hheader).1
    refine .of_written hview₂ (hqtag.trans htag) (hp.of_header hheader) ?_ ?_ (hqseps ▸ hseps)
    · rw [PageTree.length_kids]
      omega
    · rw [hqchildren]
      simp
  have hch : Changed [c.id, r.id] 0 s s₂ := hch₁.trans hch₂
  exact ⟨s₂, by rw [bind_ok hrun₁, hrun₂], hch, h.mended hch hr htop hr₂⟩

/-- **No room in the branch.** It is split around both halves, and then the tree is torn one level
further up. -/
theorem rise_run (h : Torn T m (c :: cs) t l r s)
    (hn : s.view.node? c.id = some (.internal, p)) (hkey : l.greatest? = some key)
    (hroom : s.count < maxPages) (hcells : ∀ k ∈ c.before ++ [l, r] ++ c.after, k.cells ≠ []) :
    ∃ s', Tree.splitInternal c.id p.parent (p.separators.insertIdx c.before.length key)
        ((c.before ++ [l, r] ++ c.after).map PageTree.id) s = (.ok (.ofIndex s.count), s') ∧
      Changed (.ofIndex s.count :: c.id :: (c.before ++ [l, r] ++ c.after).map PageTree.id) 1 s s' ∧
      Torn T m cs (c.around [t])
        (.branch c.id ((c.before ++ [l, r] ++ c.after).take
          (((c.before ++ [l, r] ++ c.after).length + 1) / 2)))
        (.branch (.ofIndex s.count) ((c.before ++ [l, r] ++ c.after).drop
          (((c.before ++ [l, r] ++ c.after).length + 1) / 2))) s' := by
  have hseps := h.separators hn hkey
  have hgreatest := h.greatest_around (hcells r (by simp))
  have hfresh : ∀ id ∈ Crumb.pages (c :: cs) ++ (l.pages ++ r.pages), id ≠ .ofIndex s.count := by
    rintro id hid rfl
    have hlt := h.index_lt_count hid
    rw [index_fresh hroom] at hlt
    exact Nat.lt_irrefl _ hlt
  obtain ⟨p', hn', hp, -, hlen, -, hkids⟩ := h.parent
  rw [hn] at hn'
  cases hn'
  have hlen : (c.before ++ [l, r] ++ c.after).length = p.count + 2 := by
    rw [PageTree.length_kids, hlen]
  have hcount : p.count ≤ internalCapacity := View.count_le hn
  -- The pages of the subtrees are among those of the tree, and none occurs twice.
  have hperm : (Crumb.pages (c :: cs) ++ (l.pages ++ r.pages)).Perm
      ((c.around [l, r]).pages ++ Crumb.pages cs) := by
    have haround := Crumb.pages_around c cs [l, r]
    rw [List.flatMap_cons, List.flatMap_singleton] at haround
    exact haround.symm
  have hnd := hperm.nodup_iff.mp h.nodup
  rw [Crumb.around, PageTree.pages_branch] at hnd
  obtain ⟨s', hrun, hch, hlower, hupper⟩ := splitInternal_run h.sound hroom hn hp
    (h.index_lt_count (List.mem_append_left _ h.root_mem)) hseps (by omega) (by omega)
    (fun k hk => ⟨_, hkids k hk⟩) (List.nodup_append.mp hnd).1
  refine ⟨s', hrun, hch, ?_⟩
  generalize hhalf : ((c.before ++ [l, r] ++ c.after).length + 1) / 2 = half at hlower hupper ⊢
  constructor
  case sound => exact hch.sound
  case old => exact h.old
  case root_eq => exact h.root_eq
  case frame =>
    intro id hid
    have hidc : id ∈ Crumb.pages (c :: cs) := by
      rw [pages_cons]
      exact List.mem_append_right _ hid
    have hnotMem : id ∉ c.id :: (c.before ++ [l, r] ++ c.after).flatMap PageTree.pages :=
      fun hmem => (List.nodup_append.mp hnd).2.2 id hmem id hid rfl
    rw [hch.frame fun hmem => ?_, h.frame id hidc]
    rcases List.mem_cons.mp hmem with heq | hmem
    · exact hfresh id (List.mem_append_left _ hidc) heq
    · exact hnotMem (((PageTree.map_id_sublist _).cons_cons c.id).subset hmem)
  case left_id => rfl
  case left => exact hlower
  case right => exact hupper
  case greatest =>
    refine hgreatest.imp_left fun heq => ?_
    rw [← heq]
    exact PageTree.greatest?_drop hcells (by omega) _ _
  case nodup =>
    have hhalves := PageTree.pages_halves (c.before ++ [l, r] ++ c.after) half c.id
      (.ofIndex s.count)
    have hpages := List.perm_append_comm.trans
      ((hhalves.append_right (Crumb.pages cs)).trans (hperm.symm.cons _))
    exact hpages.nodup_iff.mpr (List.nodup_cons.mpr ⟨fun hmem => hfresh _ hmem rfl, h.nodup⟩)

/-- The pages in use that are written where `r` is hooked in beside `l`: those of the halves, of the
nodes on the way up and of the children that get another parent. -/
def Crumb.hooked (cfg : Config) (root : PageId) (cs : List Crumb) (l r : PageTree) : List PageId :=
  [root, l.id, r.id] ++ l.kids.map PageTree.id ++ cs.map Crumb.id ++ shifted cfg cs

theorem Crumb.mem_hooked_top {cfg : Config} {j : PageId}
    (h : j ∈ l.kids.map PageTree.id ++ [root, r.id]) : j ∈ hooked cfg root [] l r := by
  simp only [hooked, List.mem_append, List.mem_cons, List.not_mem_nil, or_false] at h ⊢
  tauto

theorem Crumb.mem_hooked_wide {cfg : Config} {j : PageId} (h : j ∈ [c.id, r.id]) :
    j ∈ hooked cfg root (c :: cs) l r := by
  simp only [hooked, List.map_cons, List.mem_append, List.mem_cons, List.not_mem_nil, or_false]
    at h ⊢
  tauto

/-- A branch that overflows, and all its children. -/
theorem Crumb.mem_hooked_kids {cfg : Config} {j : PageId}
    (hfull : cfg.internalMax ≤ c.beside.length)
    (h : j ∈ c.id :: (c.before ++ [l, r] ++ c.after).map PageTree.id) :
    j ∈ hooked cfg root (c :: cs) l r := by
  rw [hooked, shifted, if_neg (Nat.not_lt.mpr hfull), beside]
  simp only [List.map_cons, List.map_append, List.map_nil, List.mem_append, List.mem_cons,
    List.not_mem_nil, or_false] at h ⊢
  tauto

/-- What is written further up, where the halves of that branch are hooked in. -/
theorem Crumb.mem_hooked_halves {cfg : Config} {j : PageId} {half : Nat}
    (hfull : cfg.internalMax ≤ c.beside.length)
    (h : j ∈ hooked cfg root cs (.branch c.id ((c.before ++ [l, r] ++ c.after).take half))
      (.branch new ((c.before ++ [l, r] ++ c.after).drop half))) :
    j = new ∨ j ∈ hooked cfg root (c :: cs) l r := by
  simp only [hooked, PageTree.id_branch, PageTree.kids, List.mem_append, List.mem_cons,
    List.not_mem_nil, or_false] at h
  rcases h with (((rfl | rfl | rfl) | hkid) | hup) | hshifted
  · exact .inr (by simp [hooked])
  · exact .inr (mem_hooked_wide List.mem_cons_self)
  · exact .inl rfl
  · exact .inr (mem_hooked_kids hfull
      (List.mem_cons_of_mem _ (List.map_subset _ (List.take_subset _ _) hkid)))
  · exact .inr (by simp [hooked, hup])
  · refine .inr ?_
    rw [hooked, shifted, if_neg (Nat.not_lt.mpr hfull)]
    simp [hshifted]

/-- **Hooking in the upper half of a split subtree.** -/
theorem hook_run (ha : f.Admits T.config) (h : Torn T m cs t l r s) (hcs : Crumb.Within f cs)
    (hl : l.Within f false) (hr : r.Within f false)
    (hroom : s.count + risers T.config cs ≤ maxPages) (hfuel : cs.length < fuel) :
    ∃ s' ids, T.hook fuel l.id r.id s = (.ok (), s') ∧ Changed ids (risers T.config cs) s s' ∧
      (∀ j ∈ ids, s.count ≤ j.index ∨ j ∈ hooked T.config T.root cs l r) ∧
      Held s'.view T.root none (graft T.config s.count cs l r) := by
  induction cs generalizing t l r s fuel with
  | nil =>
    obtain ⟨fuel, rfl⟩ := Nat.exists_eq_succ_of_ne_zero (Nat.ne_of_gt hfuel)
    have hid := h.left_eq_root
    obtain ⟨s₁, hseen, htop⟩ := hook_top fuel h
    have h₁ := h.seen hseen
    have hcount₁ := (hseen.sound h.sound).2
    have hnd : (l.pages ++ r.pages).Nodup := by simpa using h.nodup
    rw [← hcount₁] at hroom ⊢
    obtain ⟨s', hrun, hch, hheld⟩ := raiseRoot_run h₁.sound hroom hid h₁.left h₁.right hl hnd
    refine ⟨s', _, htop.trans hrun, (Changed.of_seen h.sound hseen).trans hch, fun j hj => ?_, ?_⟩
    · rw [List.nil_append, List.mem_cons] at hj
      rcases hj with rfl | hj
      · exact .inl (Nat.le_of_eq (index_fresh hroom).symm)
      · exact .inr (mem_hooked_top hj)
    · rw [PageTree.graft, hid]
      exact hheld
  | cons c cs ih =>
    obtain ⟨fuel, rfl⟩ := Nat.exists_eq_succ_of_ne_zero (Nat.ne_of_gt (Nat.lt_trans
      (Nat.succ_pos _) hfuel))
    obtain ⟨s₁, p, key, hseen, hn, hkey, hstep⟩ := hook_step fuel h hl
    have h₁ := h.seen hseen
    have hch₁ := Changed.of_seen h.sound hseen
    rw [← (hseen.sound h.sound).2] at hroom ⊢
    rw [hstep]
    by_cases hwide : c.beside.length < T.config.internalMax
    · obtain ⟨s₂, hrun₂, hch₂, hheld₂⟩ := widen_run h₁ hn hkey hwide hr.cells_ne_nil
      refine ⟨s₂, _, by rw [if_pos hwide, hrun₂], ?_, fun j hj => .inr (mem_hooked_wide hj), ?_⟩
      · rw [risers, if_pos hwide]
        exact hch₁.trans hch₂
      · rw [PageTree.graft, if_pos hwide]
        exact hheld₂
    · have hkids := PageTree.forall_within_kids hcs hl hr
      have hrisers : risers T.config (c :: cs) = 1 + risers T.config cs := by
        rw [risers, if_neg hwide, Nat.add_comm]
      rw [hrisers] at hroom ⊢
      have hfresh : (PageId.ofIndex s₁.count).index = s₁.count := index_fresh (by omega)
      obtain ⟨s₂, hrun₂, hch₂, h₂⟩ :=
        rise_run h₁ hn hkey (by omega) fun k hk => (hkids k hk).cells_ne_nil
      have hcount₂ := hch₂.count
      obtain ⟨hlower, hupper⟩ :=
        PageTree.within_halves ha hcs hl hr (by omega) (PageId.ofIndex s₁.count)
      obtain ⟨s₃, ids, hrun₃, hch₃, hids, hheld₃⟩ :=
        ih h₂ hcs.2 hlower hupper (by omega) (Nat.lt_of_succ_lt_succ hfuel)
      refine ⟨s₃, _, ?_, (hch₁.trans hch₂).trans hch₃, fun j hj => ?_, ?_⟩
      · rw [if_neg hwide, bind_ok hrun₂]
        exact hrun₃
      · rcases List.mem_append.mp hj with hj | hj
        · rw [List.nil_append, List.mem_cons] at hj
          rcases hj with rfl | hj
          · exact .inl (Nat.le_of_eq hfresh.symm)
          · exact .inr (mem_hooked_kids (Nat.le_of_not_lt hwide) hj)
        · rcases hids j hj with hnew | hj
          · exact .inl (by omega)
          · rcases mem_hooked_halves (Nat.le_of_not_lt hwide) hj with rfl | hj
            · exact .inl (Nat.le_of_eq hfresh.symm)
            · exact .inr hj
      · rw [PageTree.graft, if_neg hwide, ← hcount₂]
        exact hheld₃

end

end PagedTable
