import PagedTable.Proofs.Cursor.Walk
import PagedTable.Proofs.Node.Within
import PagedTable.Proofs.Tree.Distribution

/-!
# Walks through a whole tree end

No walk counts its rounds because it has to. On a whole tree it is over by itself, after no more
rounds than pages are in use, and visits no page twice.

* `Loop.GoesDown`, `Loop.Ends.of_descent`: ahead of a descent are the pages of a subtree, and each
  round enters one of its children.
* `Loop.GoesUp`, `Loop.Ends.of_climb`: ahead of a climb are the branches above, and each round
  leaves the lowest of them behind.
* `Tree.Halved`, `hooking_cases`: halves that are to be hooked in, and what a round makes of them.
* `Tree.Hooks`, `hooking_ends`: hooking in ends as well, although every round writes the branch that
  it goes on from.
* `walks_end`: all walks of the library.
-/

namespace PagedTable

open PagedTable.Action Pager Crumb
open PageTree (plug)

variable {m : View} {s : Pager} {root : PageId} {f : Fill} {t u : PageTree} {c : Crumb}
  {cs : List Crumb} {key : Key} {x : Cell}

namespace Loop

variable {σ ι α : Type} {L : Loop σ ι α} {view : σ → View} {i j : ι} {st st' : σ}

/-- A walk ends if what may lie ahead are pages of a whole tree, each of them once. -/
theorem Ends.of_rooted {At : List PageId → ι → σ → Prop} {pages : List PageId} (hs : s.Sound)
    (h : Rooted s.view root f t)
    (hstep : ∀ {pages i st}, At pages i st →
      ∃ ahead, pages = L.page i st :: ahead ∧ L.Advances At ahead i st)
    (hat : At pages i st) (hnd : pages.Nodup) (hsub : pages ⊆ t.pages) :
    L.Ends (s.view.Reaches root) s.count i st := by
  refine .of_ahead hstep hat hnd (fun id hid => ?_)
    (PageId.length_le_of_nodup hnd fun id hid => h.held.index_lt_count hs (hsub hid))
  rw [← h.id_eq, h.held.unfolds.reaches_iff]
  exact hsub hid

/-! ## Descents -/

/-- The walk is at the top of a subtree, whose pages may lie ahead. -/
def GoesDown (L : Loop σ ι α) (view : σ → View) (m : View) (pages : List PageId) (i : ι) (st : σ) :
    Prop :=
  view st = m ∧ ∃ u, Unfolds m u ∧ L.page i st = u.id ∧ pages = u.pages

/-- A round that comes to a child of its page is a step of a descent. -/
theorem Advances.down {p : Page} (hu : Unfolds m u) (hn : m.node? u.id = some (.internal, p))
    (run : L.round i st = (.ok (.inr j), st')) (hview : view st' = m)
    (hchild : L.page j st' ∈ p.children) :
    L.Advances (L.GoesDown view m) (u.kids.flatMap PageTree.pages) i st := by
  rw [hu.kids_of_node hn] at hchild
  obtain ⟨k, hk, hid⟩ := List.mem_map.mp hchild
  have hunf := hu.of_mem_nodes (PageTree.mem_nodes_of_kids hk)
  refine .next run ⟨hview, k, hunf, hid.symm, rfl⟩ ?_
  rw [List.flatMap_def]
  exact List.sublist_flatten_of_mem (List.mem_map_of_mem hk)

/-- **Descents end** from every page of a whole tree on. -/
theorem Ends.of_descent (view : σ → View) (hs : s.Sound) (h : Rooted s.view root f t)
    (hstep : ∀ {u i st}, Unfolds s.view u → view st = s.view → L.page i st = u.id →
      L.Advances (L.GoesDown view s.view) (u.kids.flatMap PageTree.pages) i st)
    (hview : view st = s.view) (hr : s.view.Reaches root (L.page i st)) :
    L.Ends (s.view.Reaches root) s.count i st := by
  obtain ⟨u, hu, hid, -⟩ := h.exists_held hr
  have hat : L.GoesDown view s.view u.pages i st :=
    ⟨hview, u, h.held.unfolds.of_mem_nodes hu, hid.symm, rfl⟩
  have hsub := PageTree.pages_sublist_of_mem_nodes hu
  refine .of_rooted hs h ?_ hat (h.nodup.sublist hsub) hsub.subset
  rintro pages i st ⟨hview, u, hunf, hpage, rfl⟩
  exact ⟨_, hpage ▸ u.pages_eq_cons, hstep hunf hview hpage⟩

/-! ## Climbs -/

/-- The walk is at the top of a subtree, and the branches above it may lie ahead. -/
def GoesUp (L : Loop σ ι α) (view : σ → View) (m : View) (t : PageTree) (pages : List PageId)
    (i : ι) (st : σ) : Prop :=
  view st = m ∧ ∃ cs u, plug cs u = t ∧ L.page i st = u.id ∧ pages = u.id :: cs.map Crumb.id

/-- A round that comes to the branch above is a step of a climb. -/
theorem Advances.up (ht : plug (c :: cs) u = t) (run : L.round i st = (.ok (.inr j), st'))
    (hview : view st' = m) (hpage : L.page j st' = c.id) :
    L.Advances (L.GoesUp view m t) ((c :: cs).map Crumb.id) i st :=
  .next run ⟨hview, cs, c.around [u], ht, hpage, rfl⟩ (.refl _)

/-- **Climbs end** from every page of a whole tree on. -/
theorem Ends.of_climb (view : σ → View) (hs : s.Sound) (h : Rooted s.view root f t)
    (hstep : ∀ {cs u i st}, plug cs u = t → view st = s.view → L.page i st = u.id →
      L.Advances (L.GoesUp view s.view t) (cs.map Crumb.id) i st)
    (hview : view st = s.view) (hr : s.view.Reaches root (L.page i st)) :
    L.Ends (s.view.Reaches root) s.count i st := by
  obtain ⟨u, hu, hid, -⟩ := h.exists_held hr
  obtain ⟨cs, ht⟩ := PageTree.exists_plug hu
  obtain ⟨hnd, hsub⟩ := PageTree.pages_up h.nodup ht
  have hat : L.GoesUp view s.view t (u.id :: cs.map Crumb.id) i st :=
    ⟨hview, cs, u, ht, hid.symm, rfl⟩
  refine .of_rooted hs h ?_ hat hnd hsub
  rintro pages i st ⟨hview, cs, u, ht, hpage, rfl⟩
  exact ⟨_, hpage ▸ rfl, hstep ht hview hpage⟩

end Loop

namespace Tree

variable {T : Tree}

theorem searching_advances (hu : Unfolds m u) (hm : s.view = m) (key : Key) :
    (searching key).Advances ((searching key).GoesDown Pager.view m)
      (u.kids.flatMap PageTree.pages) u.id s := by
  obtain ⟨kind, p, hn⟩ := hu.node
  have hrun := node_run (hm ▸ hn)
  cases kind with
  | leaf =>
    obtain ⟨⟨i, found⟩, hfind, -⟩ := Page.find?_within (View.count_le hn) key
    have hround : (searching key).round u.id s =
        (.ok (.inl ⟨u.id, i, found⟩), s.fetched u.id) := by
      dsimp only [searching]
      rw [bind_ok hrun]
      dsimp only
      rw [hfind]
      rfl
    exact .done hround
  | internal =>
    obtain ⟨i, hfind, hi⟩ := Page.findChild?_within (View.count_le hn) key
    obtain ⟨c, hc, hchild⟩ := Page.exists_child (View.count_le hn) hi
    have hround : (searching key).round u.id s = (.ok (.inr c), s.fetched u.id) := by
      dsimp only [searching]
      rw [bind_ok hrun]
      dsimp only
      rw [hfind, bind_ok (need_some_apply _ _), hchild]
      rfl
    exact .down hu hn hround (by rw [view_fetched, hm]) hc

theorem seekingGreatest_advances (hu : Unfolds m u) (hm : s.view = m) :
    seekingGreatest.Advances (seekingGreatest.GoesDown Pager.view m)
      (u.kids.flatMap PageTree.pages) u.id s := by
  obtain ⟨kind, p, hn⟩ := hu.node
  have hrun := node_run (hm ▸ hn)
  cases kind with
  | leaf =>
    have hcap : p.count ≤ leafCapacity := View.count_le hn
    by_cases hempty : p.count = 0
    · have hround : seekingGreatest.round u.id s =
          (.error (.refused (.treeCorrupted (.noGreatest u.id))), s.fetched u.id) := by
        dsimp only [seekingGreatest]
        rw [bind_ok hrun]
        dsimp only
        rw [if_pos hempty]
        rfl
      exact .failed hround nofun
    · have hround : seekingGreatest.round u.id s =
          (.ok (.inl (p.cellKey (p.count - 1))), s.fetched u.id) := by
        dsimp only [seekingGreatest]
        rw [bind_ok hrun]
        dsimp only
        rw [if_neg hempty, Page.cellKey?_eq p (by omega)]
        rfl
      exact .done hround
  | internal =>
    have hround : seekingGreatest.round u.id s = (.ok (.inr p.rightChild), s.fetched u.id) := by
      dsimp only [seekingGreatest]
      rw [bind_ok hrun]
      rfl
    exact .down hu hn hround (by rw [view_fetched, hm]) p.rightChild_mem_children

theorem counting_advances (h : Rooted m T.root f t) (ht : plug cs u = t) (hm : s.view = m)
    (needed : Nat) :
    T.counting.Advances (T.counting.GoesUp Pager.view m t) (cs.map Crumb.id) (u.id, needed) s := by
  subst hm
  cases cs with
  | nil =>
    obtain rfl : u = t := ht
    obtain ⟨s', -, hround⟩ := counting_top h.held h.id_eq needed
    exact .done hround
  | cons c cs =>
    have hheld := h.held
    have hne : u.id ≠ T.root := by
      rw [← h.id_eq, ← ht]
      exact PageTree.id_ne_plug (ht ▸ h.nodup)
    rw [← ht] at hheld
    obtain ⟨s', hseen, hround⟩ := counting_step hheld hne needed
    by_cases hroom : c.beside.length < T.config.internalMax
    · rw [if_pos hroom] at hround
      exact .done hround
    · rw [if_neg hroom] at hround
      exact .up ht hround hseen.view rfl

end Tree

namespace Walk

variable {w : Walk}

theorem descending_advances (hu : Unfolds m u) (hm : w.pager.view = m)
    (hpage : w.cursor.page = u.id) :
    descending.Advances (descending.GoesDown (fun w => w.pager.view) m)
      (u.kids.flatMap PageTree.pages) () w := by
  obtain ⟨kind, p, hn⟩ := hu.node
  have hrun := node_run (hm ▸ hn)
  rw [← hpage] at hrun
  cases kind with
  | leaf =>
    have hround : descending.round () w =
        (.ok (.inl ()), ⟨{ w.cursor with cell := 0, atEnd := p.count = 0 },
          w.pager.fetched w.cursor.page⟩) := by
      dsimp only [descending]
      rw [bind_ok (state_apply w), bind_ok hrun]
      rfl
    exact .done hround
  | internal =>
    by_cases hempty : p.count = 0
    · have hround : descending.round () w =
          (.error (.refused (.treeCorrupted (.noKeys w.cursor.page))),
            ⟨w.cursor, w.pager.fetched w.cursor.page⟩) := by
        dsimp only [descending]
        rw [bind_ok (state_apply w), bind_ok hrun]
        dsimp only
        rw [if_pos hempty]
        rfl
      exact .failed hround nofun
    · obtain ⟨c, hc, hchild⟩ := Page.exists_child (View.count_le hn) (Nat.zero_le p.count)
      have hround : descending.round () w =
          (.ok (.inr ()), ⟨{ w.cursor with page := c }, w.pager.fetched w.cursor.page⟩) := by
        dsimp only [descending]
        rw [bind_ok (state_apply w), bind_ok hrun]
        dsimp only
        rw [if_neg hempty, hchild]
        rfl
      exact .down hu hn hround (by rw [view_fetched, hm]) hc

theorem climbing_advances (h : Rooted m root f t) (ht : plug cs u = t) (hm : w.pager.view = m) :
    climbing.Advances (climbing.GoesUp (fun w => w.pager.view) m t) (cs.map Crumb.id) u.id w := by
  subst hm
  cases cs with
  | nil =>
    obtain rfl : u = t := ht
    exact .done (climbing_top h)
  | cons c cs =>
    obtain ⟨s', hseen, hlast, hnext⟩ := climbing_step h ht
    cases hafter : c.after with
    | nil => exact .up ht (hlast hafter) hseen.view rfl
    | cons k after =>
      rw [← hseen.view] at h
      obtain ⟨w', hrun, -⟩ := next_run (w := ⟨w.cursor, s'⟩) h ht hafter
      have hround : climbing.round u.id w = (.ok (.inl ()), w') := by
        rw [hnext hafter, ← bind_assoc, bind_ok hrun, pure_apply]
      exact .done hround

end Walk

/-! ## Hooking in -/

section

variable {T : Tree} {l r : PageTree}

/-- **Halves are to be hooked in** where crumbs lead to. The nodes are as full as the bounds ask,
and there is room for the pages that this takes. -/
structure Tree.Halved (T : Tree) (f : Fill) (m : View) (cs : List Crumb) (t l r : PageTree)
    (s : Pager) : Prop where
  torn : Torn T m cs t l r s
  crumbs : Crumb.Within f cs
  lower : l.Within f false
  upper : r.Within f false
  room : s.count + risers T.config cs ≤ maxPages

/-- Halves are to be hooked in. The branches on the way up may lie ahead. -/
def Tree.Hooks (T : Tree) (f : Fill) (m : View) (pages : List PageId) (halves : PageId × PageId)
    (s : Pager) : Prop :=
  ∃ cs t l r, T.Halved f m cs t l r s ∧ halves = (l.id, r.id) ∧ pages = l.id :: cs.map Crumb.id

/-- **All that a round of hooking in can come to.** It hooks the halves in for good, which takes
room in the branch above if there is one, or splits that branch around them and leaves its
halves. -/
theorem hooking_cases (ha : f.Admits T.config) (h : T.Halved f m cs t l r s) :
    (∃ s', T.hooking.round (l.id, r.id) s = (.ok (.inl ()), s') ∧
      ∀ c ∈ cs.head?, c.beside.length < T.config.internalMax) ∨
      ∃ c cs' kids p key s', cs = c :: cs' ∧ c.before ++ [l, r] ++ c.after = kids ∧
        s.view.node? c.id = some (.internal, p) ∧ l.greatest? = some key ∧
        T.hooking.round (l.id, r.id) s = (.ok (.inr (c.id, .ofIndex s.count)), s') ∧
        T.Halved f m cs' (c.around [t]) (.branch c.id (kids.take ((kids.length + 1) / 2)))
          (.branch (.ofIndex s.count) (kids.drop ((kids.length + 1) / 2))) s' := by
  obtain ⟨htorn, hcs, hl, hr, hroom⟩ := h
  cases cs with
  | nil =>
    obtain ⟨s₁, hseen, hround⟩ := hooking_top htorn
    have h₁ := htorn.seen hseen
    rw [← (hseen.sound htorn.sound).2] at hroom
    have hnd : (l.pages ++ r.pages).Nodup := by simpa using htorn.nodup
    obtain ⟨s', hrun, -⟩ :=
      raiseRoot_run h₁.sound hroom htorn.left_eq_root h₁.left h₁.right hl hnd
    rw [bind_ok hrun, pure_apply] at hround
    exact .inl ⟨s', hround, nofun⟩
  | cons c cs =>
    obtain ⟨s₁, p, key, hseen, hn, hkey, hround⟩ := hooking_step (r := r) htorn hl
    have h₁ := htorn.seen hseen
    have hcount₁ := (hseen.sound htorn.sound).2
    by_cases hwide : c.beside.length < T.config.internalMax
    · obtain ⟨s', hrun, -⟩ := widen_run h₁ hn hkey hwide hr.cells_ne_nil
      rw [if_pos hwide, ← bind_assoc, bind_ok hrun, pure_apply] at hround
      exact .inl ⟨s', hround, fun _ hc => Option.some.inj hc ▸ hwide⟩
    · have hkids := PageTree.forall_within_kids hcs hl hr
      rw [risers, if_neg hwide] at hroom
      obtain ⟨s', hrun, hch, h'⟩ :=
        rise_run h₁ hn hkey (by omega) fun k hk => (hkids k hk).cells_ne_nil
      have hcount := hch.count
      rw [hcount₁] at hrun h'
      obtain ⟨hlower, hupper⟩ :=
        PageTree.within_halves ha hcs hl hr (by omega) (PageId.ofIndex s.count)
      rw [if_neg hwide, bind_ok hrun, pure_apply] at hround
      rw [hseen.view] at hn
      exact .inr ⟨c, cs, _, p, key, s', rfl, rfl, hn, hkey, hround, h', hcs.2, hlower, hupper,
        by omega⟩

/-- Each round hooks the halves in for good, or leaves those of the branch above. -/
theorem hooking_advances (ha : f.Admits T.config) (h : T.Halved f m cs t l r s) :
    T.hooking.Advances (T.Hooks f m) (cs.map Crumb.id) (l.id, r.id) s := by
  rcases hooking_cases ha h with
    ⟨s', hround, -⟩ | ⟨c, cs, kids, p, key, s', rfl, -, -, -, hround, h'⟩
  · exact .done hround
  · exact .next hround ⟨cs, _, _, _, h', rfl, rfl⟩ (.refl _)

/-- **Hooking in ends**, and visits pages that were in the tree before anything was written. -/
theorem hooking_ends {s₁ : Pager} {halves : PageId × PageId} (ha : f.Admits T.config)
    (hs : s.Sound) (h : Rooted s.view T.root f t) (sp : t.Spot key)
    (hhooks : T.Hooks f s.view (sp.leaf :: sp.crumbs.map Crumb.id) halves s₁) :
    T.hooking.Ends (s.view.Reaches T.root) s.count halves s₁ := by
  obtain ⟨hnd, hsub⟩ := PageTree.pages_up h.nodup sp.plug_eq
  refine .of_rooted hs h ?_ hhooks hnd hsub
  rintro pages halves st ⟨cs, t, l, r, hhalved, rfl, rfl⟩
  exact ⟨_, rfl, hooking_advances ha hhalved⟩

/-- The leaf at a spot is split around a new cell, and its halves are to be hooked in. -/
def PageTree.Spot.Halved (sp : t.Spot key) (T : Tree) (f : Fill) (m : View) (x : Cell)
    (new : PageId) (s : Pager) : Prop :=
  ∃ cells, sp.cells.insertIdx sp.index x = cells ∧
    T.Halved f m sp.crumbs (.leaf sp.leaf sp.cells)
      (.leaf sp.leaf (cells.take ((cells.length + 1) / 2)))
      (.leaf new (cells.drop ((cells.length + 1) / 2))) s

/-- **The first half of an insert into a full leaf** splits it, if there is room for the pages that
were counted. -/
theorem insertBegin_full_run {s₁ : Pager} (ha : f.Admits T.config) (hs : s.Sound)
    (h : Rooted s.view T.root f t) (sp : t.Spot x.key) (hseen₁ : s.Seen s₁)
    (hrun₁ : T.search x.key s = (.ok ⟨sp.leaf, sp.index, false⟩, s₁))
    (hfull : T.config.leafMax ≤ sp.cells.length) (hroom : s.count + sp.cost T.config ≤ maxPages) :
    ∃ s', T.insertBegin x.key x.value s = (.ok (some (sp.leaf, .ofIndex s.count)), s') ∧
      sp.Halved T f s.view x (.ofIndex s.count) s' := by
  obtain ⟨s₂, hseen₂, hrun₂⟩ := insertBegin_absent_run h sp hseen₁ hrun₁
  obtain ⟨hs₂, hcount₂⟩ := hseen₂.sound hs
  obtain ⟨s₃, hseen₃, hrun₃⟩ := reserve_run hs₂ (by rwa [hseen₂.view]) sp hfull
  obtain ⟨hs₃, hcount₃⟩ := hseen₃.sound hs₂
  rw [hcount₂] at hrun₃ hcount₃
  rw [if_neg (Nat.not_lt.mpr hroom)] at hrun₃
  rw [sp.cost_of_full hfull] at hroom
  have hview : s₃.view = s.view := (hseen₂.trans hseen₃).view
  obtain ⟨p, d, q, s', -, -, hrun, hch, -, htorn⟩ :=
    tearLeaf_step (x := x) hs₃ (by rwa [hview]) sp hfull (by omega) rfl
  rw [hcount₃] at hrun htorn
  rw [hview] at htorn
  obtain ⟨hcrumbs, hlower, hupper⟩ :=
    sp.within_split (x := x) ha h.within hfull rfl sp.leaf (PageId.ofIndex s.count)
  have hcount := hch.count
  refine ⟨s', hrun₂.trans ?_, _, rfl, htorn, hcrumbs, hlower, hupper, by omega⟩
  rw [if_neg (Nat.not_lt.mpr hfull), bind_ok hrun₃, bind_ok hrun, pure_apply]

/-- **The first half of an insert comes to halves** only if it has split the leaf of the key. -/
theorem halved_of_insertBegin {s' : Pager} {halves : PageId × PageId} (ha : f.Admits T.config)
    (hs : s.Sound) (h : Rooted s.view T.root f t)
    (hrun : T.insertBegin x.key x.value s = (.ok (some halves), s')) :
    ∃ sp : t.Spot x.key, (T.search x.key s).1 = .ok ⟨sp.leaf, sp.index, false⟩ ∧
      halves = (sp.leaf, .ofIndex s.count) ∧ sp.Halved T f s.view x (.ofIndex s.count) s' := by
  obtain ⟨sp, found, s₁, -, hseen₁, hrun₁⟩ := Tree.search_run h x.key
  refine ⟨sp, ?_⟩
  cases found with
  | true =>
    unfold Tree.insertBegin at hrun
    rw [bind_ok hrun₁] at hrun
    cases hrun
  | false =>
    obtain ⟨s₂, hseen₂, hrun₂⟩ := insertBegin_absent_run h sp hseen₁ hrun₁
    obtain ⟨hs₂, hcount₂⟩ := hseen₂.sound hs
    by_cases hwide : sp.cells.length < T.config.leafMax
    · rw [if_pos hwide] at hrun₂
      obtain ⟨_, _, -, hnone⟩ := bind_eq_ok (hrun₂.symm.trans hrun)
      cases hnone
    · have hfull := Nat.le_of_not_lt hwide
      by_cases hroom : s.count + sp.cost T.config ≤ maxPages
      · obtain ⟨s'', hrun', hhalved⟩ := insertBegin_full_run ha hs h sp hseen₁ hrun₁ hfull hroom
        cases hrun.symm.trans hrun'
        exact ⟨congrArg Prod.fst hrun₁, rfl, hhalved⟩
      · obtain ⟨s₃, -, hrun₃⟩ := reserve_run hs₂ (by rwa [hseen₂.view]) sp hfull
        rw [hcount₂, if_pos (Nat.lt_of_not_le hroom)] at hrun₃
        rw [if_neg hwide, bind_error hrun₃] at hrun₂
        cases hrun.symm.trans hrun₂

theorem hooks_of_insertBegin {s' : Pager} {halves : PageId × PageId} (ha : f.Admits T.config)
    (hs : s.Sound) (h : Rooted s.view T.root f t)
    (hrun : T.insertBegin x.key x.value s = (.ok (some halves), s')) :
    ∃ sp : t.Spot x.key,
      T.Hooks f s.view (sp.leaf :: sp.crumbs.map Crumb.id) halves s' := by
  obtain ⟨sp, -, rfl, cells, -, hhalved⟩ := halved_of_insertBegin ha hs h hrun
  exact ⟨sp, sp.crumbs, _, _, _, hhalved, rfl, rfl⟩

/-- A new key splits a leaf of the tree of three leaves. -/
theorem insertBegin_threeLeaves (hs : s.Sound)
    (h : Rooted s.view T.root T.config.fill PageTree.threeLeaves) (hused : s.count ≤ 4)
    (hfull : T.config.leafMax = 2) (hkey : x.key ∉ PageTree.threeLeaves.keys) :
    ∃ (sp : PageTree.threeLeaves.Spot x.key) (s' : Pager),
      T.insertBegin x.key x.value s = (.ok (some (sp.leaf, .ofIndex s.count)), s') ∧
      sp.Halved T T.config.fill s.view x (.ofIndex s.count) s' := by
  obtain ⟨sp, found, s₁, hfound, hseen₁, hrun₁⟩ := Tree.search_run h x.key
  obtain rfl : found = false := by
    rw [← Bool.not_eq_true, hfound]
    exact hkey
  have hmem := PageTree.mem_nodes_plug sp.crumbs (.leaf sp.leaf sp.cells)
  rw [sp.plug_eq] at hmem
  have hlen := (PageTree.leaf_of_mem_threeLeaves hmem).2
  exact ⟨sp, insertBegin_full_run T.config.fill_admits hs h sp hseen₁ hrun₁ (by omega)
    (PageTree.room_threeLeaves T.config hused sp)⟩

end

/-! ## All walks -/

/-- **Walks end.** Where a tree passes the check, each walk is over by itself after no more rounds
than pages are in use. In all of them it visits pages of the tree, and none of them twice. So it is
for the descents to the leaf of a key, to the greatest key and to the first leaf, for the climbs
that count the pages of a split and that look for the next leaf, from whichever page of the tree
they start, and for the climb that hooks in the halves of a leaf that an insert had to split. The
pages of that one are those the tree had before the insert. -/
theorem walks_end (T : Tree) (s : Pager) (hs : s.Reachable) (hvalid : (T.validate s).1 = .ok ()) :
    (∀ key, (Tree.searching key).Ends (s.view.Reaches T.root) s.count T.root s) ∧
    (∀ id, s.view.Reaches T.root id →
      Tree.seekingGreatest.Ends (s.view.Reaches T.root) s.count id s ∧
      (∀ needed, T.counting.Ends (s.view.Reaches T.root) s.count (id, needed) s) ∧
      ∀ cursor : Cursor,
        Walk.descending.Ends (s.view.Reaches T.root) s.count () ⟨{ cursor with page := id }, s⟩ ∧
        Walk.climbing.Ends (s.view.Reaches T.root) s.count id ⟨cursor, s⟩) ∧
    ∀ key value halves s₁, T.insertBegin key value s = (.ok (some halves), s₁) →
      T.insert key value s = T.hook walkLength halves.1 halves.2 s₁ ∧
      T.hooking.Ends (s.view.Reaches T.root) s.count halves s₁ := by
  obtain ⟨t, h⟩ := Tree.validate_eq_ok_iff.mp hvalid
  refine ⟨fun key => ?_, fun id hid => ⟨?_, fun needed => ?_, fun cursor => ⟨?_, ?_⟩⟩, ?_⟩
  · refine .of_descent Pager.view hs.sound h ?_ rfl .refl
    rintro u id st hu hm rfl
    exact Tree.searching_advances hu hm key
  · refine .of_descent Pager.view hs.sound h ?_ rfl hid
    rintro u id st hu hm rfl
    exact Tree.seekingGreatest_advances hu hm
  · refine .of_climb Pager.view hs.sound h ?_ rfl hid
    rintro cs u ⟨id, needed⟩ st ht hm rfl
    exact Tree.counting_advances h ht hm needed
  · refine .of_descent (fun w => w.pager.view) hs.sound h ?_ rfl hid
    intro u i st hu hm hpage
    exact Walk.descending_advances hu hm hpage
  · refine .of_climb (fun w => w.pager.view) hs.sound h ?_ rfl hid
    rintro cs u id st ht hm rfl
    exact Walk.climbing_advances h ht hm
  · intro key value halves s₁ hrun
    obtain ⟨sp, hhooks⟩ :=
      hooks_of_insertBegin (x := ⟨key, value⟩) T.config.fill_admits hs.sound h hrun
    refine ⟨?_, hooking_ends T.config.fill_admits hs.sound h sp hhooks⟩
    rw [Tree.insert_eq, bind_ok hrun]
    rfl

/-- A root above three full leaves, which may have no more: both it and the leaf of a new key have
to be split. -/
theorem walks_end_threeLeaves :
    let T : Tree := { root := rootPage, config := { leafMax := 2, internalMax := 2 } }
    ∃ s : Pager, s.Reachable ∧ (T.validate s).1 = .ok () ∧ s.count ≤ 4 ∧
      (Tree.searching 7).Ends (s.view.Reaches T.root) s.count T.root s ∧
      ∃ halves s₁, T.insertBegin 7 (Vector.replicate _ 0) s = (.ok (some halves), s₁) ∧
        T.hooking.Ends (s.view.Reaches T.root) s.count halves s₁ := by
  intro T
  obtain ⟨s, hund, hused, h⟩ := PageTree.exists_threeLeaves T.config (by decide)
  change Rooted s.view T.root T.config.fill _ at h
  have hvalid := Tree.validate_eq_ok_iff.mpr ⟨_, h⟩
  obtain ⟨hsearch, -, hinsert⟩ := walks_end T s hund.reachable hvalid
  obtain ⟨_, s', hbegin, -⟩ := insertBegin_threeLeaves (x := ⟨7, Vector.replicate _ 0⟩)
    hund.reachable.sound h hused rfl (by rw [PageTree.keys_threeLeaves]; decide)
  exact ⟨s, hund.reachable, hvalid, hused, hsearch 7, _, s', hbegin, (hinsert _ _ _ _ hbegin).2⟩

end PagedTable
