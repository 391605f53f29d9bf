import PagedTable.Proofs.PageTree.Spot
import PagedTable.Proofs.Tree.Respects
import PagedTable.Proofs.Tree.Split

/-!
# What splits leave alone

A split writes the nodes on the way up and new pages, and it puts children below another parent. No
other page changes.

* `Pager.Spared m n path moved s`: of the pages below `n`, `s` shows all as the view `m` does but
  those on `path`, and those in `moved` may name another parent.
* `fetch_spares`, `edit_spares`, `reparent_spares`: accesses that keep to this.
* `splitInternal_spares`, `raiseRoot_spared`: one split. `hook_spared`: all splits on the way up.
* `PageTree.Spot.Writes`: the pages that an insert takes or writes.
* `PageTree.Spot.Footprint`: what an insert leaves of the pages in use, and what it writes to the
  leaf (`PageTree.Spot.written?_eq_some`).
-/

namespace PagedTable

open PagedTable.Action Pager Crumb

namespace Pager

/-- What is left of the pages below `n` that `m` shows. Those on `path` may be anything. -/
structure Spared (m : View) (n : Nat) (path moved : List PageId) (s : Pager) : Prop where
  sound : s.Sound
  count : n ≤ s.count
  frame : ∀ {id}, id.index < n → id ∉ path → id ∉ moved → s.view id = m id
  body : ∀ {id f}, id.index < n → id ∉ path → m id = some f →
    ∃ f', s.view id = some f' ∧ f'.page.SameButParent f.page

variable {m : View} {n : Nat} {path moved : List PageId} {s s' : Pager} {id : PageId}
  {kind : NodeKind} {p : Page}

namespace Spared

/-- No page below `n` has changed. -/
theorem of_frame (hs : s.Sound) (hn : n ≤ s.count)
    (h : ∀ id, id.index < n → s.view id = m id) : Spared m n path moved s :=
  ⟨hs, hn, fun hid _ _ => h _ hid, fun hid _ hf => ⟨_, (h _ hid).trans hf, .refl _⟩⟩

/-- One page has changed, and all other pages that were written are new. -/
theorem of_changed {ids : List PageId} {k : Nat} {f : Frame} (h : Changed ids k s s')
    (hids : ∀ j ∈ ids, j ≠ id → s.count ≤ j.index) (hv : s'.view id = some f) :
    Spared (Function.update s.view id (some f)) s.count path moved s' := by
  refine of_frame h.sound (by rw [h.count]; exact Nat.le_add_right _ _) fun j hj => ?_
  by_cases hjid : j = id
  · rw [hjid, hv, Function.update_self]
  · rw [Function.update_of_ne hjid]
    exact h.frame fun hmem => absurd (hids j hmem hjid) (by omega)

/-- The page that is allocated next is new. -/
theorem fresh (h : Spared m n path moved s) : n ≤ (PageId.ofIndex s.count).index := by
  rw [PageId.index_ofIndex (Nat.lt_of_le_of_lt h.sound.count_le (by decide))]
  exact h.count

/-- Loading nodes changes nothing. -/
theorem seen (h : Spared m n path moved s) (hseen : s.Seen s') : Spared m n path moved s' := by
  obtain ⟨hs', hcount⟩ := hseen.sound h.sound
  refine ⟨hs', hcount ▸ h.count, ?_, ?_⟩
  · rw [hseen.view]
    exact h.frame
  · rw [hseen.view]
    exact h.body

/-- A node is read as before, but for its parent. -/
theorem node (h : Spared m n path moved s) (hid : id.index < n) (hpath : id ∉ path)
    (hn : m.node? id = some (kind, p)) :
    ∃ q, s.view.node? id = some (kind, q) ∧ q.SameButParent p := by
  obtain ⟨⟨d, hv⟩, htag, hcount⟩ := View.node?_eq_some_iff.mp hn
  obtain ⟨⟨q, d'⟩, hv', hq⟩ := h.body hid hpath hv
  exact ⟨q, View.node?_eq_some_iff.mpr ⟨⟨d', hv'⟩, hq.tag.trans htag, by rwa [hq.sameBody.count]⟩,
    hq⟩

/-- After a change that is allowed at page `id`, if all other pages are as they were. -/
theorem of_edited (h : Spared m n path moved s) {g : Page → Option Page}
    (hframe : id.index < n → id ∉ path → id ∉ moved →
      (edit id g s).2.view id = s.view id)
    (hbody : ∀ f, id.index < n → id ∉ path → s.view id = some f →
      ∃ f', (edit id g s).2.view id = some f' ∧ f'.page.SameButParent f.page) :
    Spared m n path moved (edit id g s).2 := by
  have hother : ∀ j, j ≠ id → (edit id g s).2.view j = s.view j := by
    intro j hj
    rcases edited_cases s id g with ⟨-, hs⟩ | ⟨f, q, hv, -, hs⟩
    · rw [hs]
    · rw [hs, view_wrote hv, Function.update_of_ne hj]
  refine ⟨Sound.closed.edit id g s h.sound, (count_closed n).edit id g s h.count, ?_, ?_⟩
  · intro j hj hp hm
    by_cases hjid : j = id
    · subst hjid
      rw [hframe hj hp hm, h.frame hj hp hm]
    · rw [hother j hjid, h.frame hj hp hm]
  · intro j f hj hp hf
    obtain ⟨f', hf', hsame⟩ := h.body hj hp hf
    by_cases hjid : j = id
    · subst hjid
      obtain ⟨f'', hf'', hsame'⟩ := hbody f' hj hp hf'
      exact ⟨f'', hf'', hsame'.trans hsame⟩
    · exact ⟨f', by rw [hother j hjid, hf'], hsame⟩

end Spared

/-! ## Accesses -/

/-- The page is new or on the path. -/
abbrev Writable (n : Nat) (path : List PageId) (id : PageId) : Prop := n ≤ id.index ∨ id ∈ path

theorem fetch_spares (id : PageId) : Keeps (Spared m n path moved) (fetch id) := fun s h => by
  refine ⟨Sound.closed.fetch id s h.sound, (count_closed n).fetch id s h.count, ?_, ?_⟩
  all_goals rw [show (fetch id s).2.view = s.view from view_fetched s id]
  · exact h.frame
  · exact h.body

theorem edit_spares (h : Writable n path id) (g : Page → Option Page) :
    Keeps (Spared m n path moved) (edit id g) := fun s hs =>
  hs.of_edited (fun hid hp => absurd h (by simpa using ⟨hid, hp⟩))
    fun _ hid hp => absurd h (by simpa using ⟨hid, hp⟩)

/-- A page is put below another parent. -/
theorem reparent_spares (h : Writable n (path ++ moved) id) (q : PageId) :
    Keeps (Spared m n path moved) (Tree.setParent q id) := fun s hs => by
  refine hs.of_edited (fun hid hp hm => absurd h (by simpa using ⟨hid, hp, hm⟩)) fun f _ _ hf => ?_
  rw [edit_run (q := f.page.setParent q) hf rfl, view_wrote hf, Function.update_self]
  exact ⟨_, rfl, .setParent f.page q⟩

theorem spared_reads : Reads (Same (Spared m n path moved)) where
  count := by
    rintro s s' ⟨-, rfl⟩
    rfl
  fetch id := respects_same.mpr (fetch_spares id)

/-- What is allocated is new. -/
theorem allocate_spares {α : Type} {f : PageId → Action Pager α}
    (h : ∀ id, n ≤ id.index → Respects (Same (Spared m n path moved)) (f id)) :
    Respects (Same (Spared m n path moved)) (allocate >>= f) := by
  rintro _ s ⟨hs, rfl⟩
  exact h (.ofIndex s.count) hs.fresh s s ⟨hs, rfl⟩

end Pager

/-! ## Splits -/

namespace Tree

variable {m : View} {n : Nat} {path moved : List PageId} {s : Pager} {id : PageId}

/-- Children are adopted that may be put below another parent. -/
theorem adopt_spares {page : Page} (id : PageId) (hkids : page.kind = .ok .internal →
      page.count ≤ internalCapacity ∧ ∀ c ∈ page.children, Writable n (path ++ moved) c) :
    Respects (Same (Spared m n path moved)) (adopt id page) := by
  unfold adopt
  split
  · exact .fail _
  · exact .pure _
  · rename_i hkind
    obtain ⟨hcount, hkids⟩ := hkids hkind
    rw [Page.children?_eq hcount]
    exact .forM fun c hc => respects_same.mpr (reparent_spares (hkids c hc) id)

/-- **A branch that is split** is written, and so is a new page; its children get another parent. -/
theorem splitInternal_spares {children : List PageId} (hid : Writable n path id)
    (hkids : ∀ c ∈ children, Writable n (path ++ moved) c) (parent : PageId) (keys : List Key) :
    Keeps (Spared m n path moved) (splitInternal id parent keys children) := by
  have hedit : ∀ {j}, Writable n path j → ∀ g,
      Respects (Same (Spared m n path moved)) (edit j g) := fun hj g =>
    respects_same.mpr (edit_spares hj g)
  have hadopt : ∀ {ids} (q : PageId), ids ⊆ children →
      Respects (Same (Spared m n path moved)) (ids.forM (setParent q)) := fun q hsub =>
    .forM fun c hc => respects_same.mpr (reparent_spares (hkids c (hsub hc)) q)
  exact Respects.keeps <| .bind (.require _) fun _ => allocate_spares fun new hnew =>
    .bind (hedit (.inl hnew) _) fun _ => .bind (hedit hid _) fun _ =>
      .bind (hadopt _ (List.take_subset _ _)) fun _ =>
        .bind (hadopt _ (List.drop_subset _ _)) fun _ => .pure _

/-- **A root that is split** is written, and so are its right half and a new page; the children of
its left half get another parent. -/
theorem raiseRoot_spared {T : Tree} {l : PageTree} {right : PageId}
    (h : Spared m n path moved s) (hl : Held s.view T.root none l) (hid : l.id = T.root)
    (hroot : Writable n path T.root) (hright : Writable n path right)
    (hkids : ∀ k ∈ l.kids, Writable n (path ++ moved) k.id) :
    Spared m n path moved (T.raiseRoot right s).2 := by
  obtain ⟨kind, p, hn, -⟩ := hl.node
  obtain ⟨⟨d, hv⟩, htag, hcount⟩ := View.node?_eq_some_iff.mp hn
  have hedit : ∀ {j}, Writable n path j → ∀ g,
      Respects (Same (Spared m n path moved)) (edit j g) := fun hj g =>
    respects_same.mpr (edit_spares hj g)
  have hbody : ((p.setRoot false).setParent T.root).SameBody p :=
    (Page.sameBody_setParent _ _).trans (Page.sameBody_setRoot _ _)
  have hkind : ((p.setRoot false).setParent T.root).kind = .ok kind :=
    Page.ofTag_eq_ok_iff.mpr (by rw [Page.tag_setParent, Page.tag_setRoot, htag])
  -- The page that is copied names the subtrees of the left half.
  have hadopt : ∀ j, Respects (Same (Spared m n path moved))
      (adopt j ((p.setRoot false).setParent T.root)) := fun j => by
    refine adopt_spares j fun hinternal => ?_
    obtain rfl : kind = .internal := Except.ok.inj (hkind.symm.trans hinternal)
    rw [hbody.count, hbody.children, (hl.kids_of_node hn).1]
    exact ⟨hcount, List.forall_mem_map.mpr hkids⟩
  have hrest : Respects (Same (Spared m n path moved)) (do
      edit (.ofIndex s.count) fun _ => some ((p.setRoot false).setParent T.root)
      adopt (.ofIndex s.count) ((p.setRoot false).setParent T.root)
      let key ← greatest (.ofIndex s.count)
      edit T.root fun _ =>
        ((Page.empty .internal).setRoot true).setLinks? [⟨.ofIndex s.count, key⟩] right
      edit right fun p => some ((p.setRoot false).setParent T.root)) :=
    .bind (hedit (.inl h.fresh) _) fun _ => .bind (hadopt _) fun _ =>
      .bind (greatest_respects spared_reads _) fun _ => .bind (hedit hroot _) fun _ =>
        hedit hright _
  have hrun : T.raiseRoot right s = _ :=
    (bind_ok (show allocate s = (.ok (.ofIndex s.count), s) from rfl)).trans
      (bind_ok (fetch_run (hid ▸ hv)))
  rw [hrun]
  exact hrest.keeps _ (fetch_spares T.root s h)

end Tree

/-! ## All splits on the way up -/

/-- The subtrees of a branch with a subtree split are those beside it and its halves. -/
theorem Crumb.forall_id_kids {P : PageId → Prop} {c : Crumb} {l r : PageTree}
    (hbeside : ∀ id ∈ c.beside.map PageTree.id, P id) (hl : P l.id) (hr : P r.id) :
    ∀ k ∈ c.before ++ [l, r] ++ c.after, P k.id := by
  rw [beside, List.map_append, List.forall_mem_append, List.forall_mem_map, List.forall_mem_map]
    at hbeside
  simpa [hl, hr, or_imp, forall_and] using hbeside

/-- **All splits on the way up** write the nodes on it and put no more children below another parent
than those that the halves of a branch share out. -/
theorem hook_spared {T : Tree} {m m₀ : View} {n : Nat} {path moved : List PageId} {s : Pager}
    {f : Fill} {cs : List Crumb} {t l r : PageTree} {fuel : Nat} (ha : f.Admits T.config)
    (h : Torn T m₀ cs t l r s) (hcs : Crumb.Within f cs) (hl : l.Within f false)
    (hr : r.Within f false) (hroom : s.count + risers T.config cs ≤ maxPages)
    (hfuel : cs.length < fuel) (hs : Spared m n path moved s) (hroot : T.root ∈ path)
    (hpath : ∀ c ∈ cs, c.id ∈ path) (hmoved : shifted T.config cs ⊆ moved)
    (hleft : Writable n (path ++ moved) l.id) (hright : Writable n path r.id)
    (hkids : ∀ k ∈ l.kids, Writable n (path ++ moved) k.id) :
    Spared m n path moved (T.hook fuel l.id r.id s).2 := by
  induction cs generalizing t l r s fuel with
  | nil =>
    obtain ⟨fuel, rfl⟩ := Nat.exists_eq_succ_of_ne_zero (Nat.ne_of_gt hfuel)
    obtain ⟨s₁, hseen, htop⟩ := hook_top fuel h
    rw [htop]
    exact Tree.raiseRoot_spared (hs.seen hseen) (h.seen hseen).left h.left_eq_root (.inr hroot)
      hright hkids
  | cons c cs ih =>
    obtain ⟨fuel, rfl⟩ := Nat.exists_eq_succ_of_ne_zero (Nat.ne_of_gt (Nat.lt_trans
      (Nat.succ_pos _) hfuel))
    obtain ⟨s₁, p, key, hseen, hn, hkey, hstep⟩ := hook_step fuel h hl
    have h₁ := h.seen hseen
    have hs₁ := hs.seen hseen
    rw [← (hseen.sound h.sound).2] at hroom
    obtain ⟨hc, hpath⟩ := List.forall_mem_cons.mp hpath
    have hright' : Writable n (path ++ moved) r.id :=
      hright.imp_right fun hmem => List.mem_append_left _ hmem
    rw [hstep]
    by_cases hwide : c.beside.length < T.config.internalMax
    · rw [if_pos hwide]
      exact Respects.keeps (.bind (respects_same.mpr (edit_spares (.inr hc) _)) fun _ =>
        respects_same.mpr (reparent_spares hright' c.id)) s₁ hs₁
    · rw [if_neg hwide]
      rw [shifted, if_neg hwide, List.append_subset] at hmoved
      have hchildren := forall_id_kids (P := Writable n (path ++ moved)) (fun id hid =>
        .inr (List.mem_append_right _ (hmoved.1 hid))) hleft hright'
      have hwithin := PageTree.forall_within_kids hcs hl hr
      have hrisers : risers T.config (c :: cs) = risers T.config cs + 1 := if_neg hwide
      obtain ⟨s₂, hrun₂, hch₂, h₂⟩ :=
        rise_run h₁ hn hkey (by omega) fun k hk => (hwithin k hk).cells_ne_nil
      have hcount₂ := hch₂.count
      have hs₂ := Tree.splitInternal_spares (.inr hc) (List.forall_mem_map.mpr hchildren) p.parent
        (p.separators.insertIdx c.before.length key) s₁ hs₁
      rw [hrun₂] at hs₂
      obtain ⟨hlower, hupper⟩ :=
        PageTree.within_halves ha hcs hl hr (by omega) (PageId.ofIndex s₁.count)
      rw [bind_ok hrun₂]
      exact ih h₂ hcs.2 hlower hupper (by omega) (Nat.lt_of_succ_lt_succ hfuel) hs₂ hpath hmoved.2
        (.inr (List.mem_append_left _ hc)) (.inl hs₁.fresh)
        fun k hk => hchildren k (List.mem_of_mem_take hk)

/-! ## Inserts -/

namespace PageTree.Spot

variable {t : PageTree} {key : Key}

/-- The page of the leaf once a new cell is on the spot. A full leaf keeps the lower half. -/
def written? (cfg : Config) (sp : t.Spot key) (x : Cell) (p : Page) : Option Page :=
  if sp.cells.length < cfg.leafMax then p.insertCell? sp.index x
  else
    let cells := sp.cells.insertIdx sp.index x
    p.setCells? (cells.take ((cells.length + 1) / 2))

/-- Whatever stands in a place of the leaf then is the new cell, a cell of the tree, or what stood
there or further down. -/
theorem written?_eq_some {cfg : Config} {sp : t.Spot key} {x : Cell} {p q : Page}
    (h : sp.written? cfg x p = some q) :
    q.tag = p.tag ∧ q.count ≤ leafCapacity ∧ ∀ i < leafCapacity,
      q.cell i = x ∨ q.cell i ∈ t.cells ∨ ∃ k ≤ i, q.cell i = p.cell k := by
  unfold written? at h
  split at h
  · refine ⟨(Page.header_eq_iff.mp (Page.header_insertCell? h)).1, Page.count_le_of_insertCell? h,
      fun i hi => (Page.cell_insertCell? h hi).imp_right .inr⟩
  · refine ⟨(Page.header_eq_iff.mp (Page.header_setCells? h)).1, Page.count_le_of_setCells? h,
      fun i _ => ?_⟩
    rcases Page.cell_setCells? h i with hmem | heq
    · have hmem := List.mem_of_mem_take hmem
      rw [sp.insertIdx_cells, List.mem_append, List.mem_cons] at hmem
      rcases hmem with hmem | rfl | hmem
      · exact .inr (.inl (sp.cells_sublist.subset (List.mem_of_mem_take hmem)))
      · exact .inl rfl
      · exact .inr (.inl (sp.cells_sublist.subset (List.mem_of_mem_drop hmem)))
    · exact .inr (.inr ⟨i, Nat.le_refl i, heq⟩)

/-- The nodes above the leaf that a new cell on the spot may change, with the root. -/
def above (cfg : Config) (sp : t.Spot key) : List PageId :=
  if sp.cells.length < cfg.leafMax then [] else t.id :: sp.crumbs.map Crumb.id

/-- The pages that a new cell on the spot may put below another parent. -/
def moved (cfg : Config) (sp : t.Spot key) : List PageId :=
  if sp.cells.length < cfg.leafMax then [] else sp.leaf :: shifted cfg sp.crumbs

/-- **What a new cell writes.** It takes the pages that are counted for it. Of those in use only its
leaf, nodes above that and pages that it puts below another parent are written. -/
def Writes (cfg : Config) (sp : t.Spot key) (s s' : Pager) : Prop :=
  ∃ ids, Changed ids (sp.cost cfg) s s' ∧
    ∀ j ∈ ids, s.count ≤ j.index ∨ j ∈ sp.leaf :: (sp.above cfg ++ sp.moved cfg)

namespace Writes

variable {cfg : Config} {sp : t.Spot key} {s s' s'' : Pager} {id : PageId}

theorem sound (h : sp.Writes cfg s s') : s'.Sound := h.elim fun _ h => h.1.sound

theorem count (h : sp.Writes cfg s s') : s'.count = s.count + sp.cost cfg :=
  h.elim fun _ h => h.1.count

/-- Nodes were loaded before. -/
theorem of_seen (hs : s.Sound) (hseen : s.Seen s') (h : sp.Writes cfg s' s'') :
    sp.Writes cfg s s'' := by
  obtain ⟨ids, hch, hids⟩ := h
  rw [(hseen.sound hs).2] at hids
  have hch := (Changed.of_seen hs hseen).trans hch
  rw [Nat.zero_add] at hch
  exact ⟨ids, hch, hids⟩

/-- Whatever page is not among these is left as it is. -/
theorem samePage (h : sp.Writes cfg s s') (hs : s.Sound)
    (hnew : ¬ (s.count ≤ id.index ∧ id.index < s'.count))
    (hid : id ∉ sp.leaf :: (sp.above cfg ++ sp.moved cfg)) : s.SamePage s' id := by
  obtain ⟨ids, hch, hids⟩ := h
  by_cases hlt : id.index < s.count
  · exact hch.same fun hmem => (hids id hmem).elim (Nat.not_le.mpr hlt) hid
  · have hcount := hch.count
    exact .of_count_le hs hch.sound (by omega) (by omega)

end Writes

/-- **The footprint of a new cell** in the first `n` pages of the view `m`. The leaf is written, the
nodes above it may be if it was full, and then some pages may have another parent. -/
def Footprint (cfg : Config) (sp : t.Spot key) (x : Cell) (m : View) (n : Nat) (s : Pager) : Prop :=
  ∃ p d q, m sp.leaf = some ⟨p, d⟩ ∧ sp.written? cfg x p = some q ∧
    Spared (Function.update m sp.leaf (some { page := q, dirty := true })) n (sp.above cfg)
      (sp.moved cfg) s

end PageTree.Spot

end PagedTable
