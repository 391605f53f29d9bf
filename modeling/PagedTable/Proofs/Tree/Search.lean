import PagedTable.Proofs.PageTree.Spot
import PagedTable.Proofs.Tree.Rounds

/-!
# Searching the tree

* `search_run`: the search for a key ends on the spot where it is or belongs.
* `get_run`: a lookup answers the value of the key's cell.
* `greatest_run`: the greatest key below a page.
* `splitCost_run`: the pages counted for a split are those that `Crumb.risers` says.
-/

namespace PagedTable

open PagedTable.Action Pager Crumb
open PageTree (plug)

variable {m : View} {s : Pager} {root : PageId} {up : Option PageId} {f : Fill} {top : Bool}
  {t : PageTree} {c : Crumb} {cs : List Crumb} {key : Key} {kids : List PageTree}

namespace Tree

/-! ## Runs -/

/-- The search for a key goes down to the leaf that covers it, and says where in the leaf the key is
or belongs. -/
theorem descend_run {fuel : Nat} (hm : s.view = m) (h : Held m root up t) (hw : t.Within f top)
    (hs : t.keys.Pairwise (· < ·)) (hcov : Covers cs t key) (hfuel : t.height ≤ fuel) :
    ∃ cs' id cells i found s', plug cs' (.leaf id cells) = plug cs t ∧
      Covers cs' (.leaf id cells) key ∧ Cuts (cells.map Cell.key) key i ∧
      (found = true ↔ (cells.map Cell.key)[i]? = some key) ∧ s.Seen s' ∧
      descend key fuel t.id s = (.ok ⟨id, i, found⟩, s') := by
  induction fuel generalizing t up cs s top with
  | zero => exact absurd hfuel (Nat.not_le.mpr t.height_pos)
  | succ fuel ih =>
    cases h with
    | @leaf _ id cells p hn _ hc =>
      subst hc
      rw [← hm] at hn
      rw [PageTree.keys_leaf, Page.map_key_cells] at hs
      obtain ⟨i, found, hfind, hcut, hfound⟩ := Page.find?_sorted (View.count_le hn) hs key
      refine ⟨cs, id, p.cells, i, found, s.fetched id, rfl, hcov, ?_, ?_, .node hn, ?_⟩
      · rwa [Page.map_key_cells]
      · rwa [Page.map_key_cells]
      · rw [PageTree.id_leaf, descend, bind_ok (node_run hn)]
        dsimp only
        rw [hfind, bind_ok (need_some_apply _ _), pure_apply]
    | @branch _ id kids p hn _ hc hseps hk =>
      rw [PageTree.within_branch] at hw
      have hne : kids ≠ [] := List.ne_nil_of_length_pos (by
        have := PageTree.two_le_kids hw.1.1
        omega)
      have hsorted := hs
      rw [PageTree.keys_branch] at hsorted
      obtain ⟨i, hfind, hcut⟩ := Page.findChild?_sorted (View.count_le hn)
        ((separators_pairwise hsorted hseps).imp UInt32.le_of_lt) key
      obtain ⟨before, k, after, rfl, rfl, hbefore, hafter⟩ := exists_covering hne hseps hcut
      have hkmem : k ∈ before ++ [k] ++ after := by simp
      have hcov' : Covers (⟨id, before, after⟩ :: cs) k key :=
        hcov.step hs (hw.2 k hkmem).cells_ne_nil hbefore hafter
      have hchild : p.child? before.length = some k.id := by
        refine Page.child?_of_getElem? (View.count_le hn) ?_
        rw [hc]
        simp
      have hheight := PageTree.height_lt_of_mem_kids (i := id) hkmem
      have hsub :=
        PageTree.keys_sublist_of_mem_nodes (PageTree.mem_nodes_of_mem_kids (i := id) hkmem)
      obtain ⟨cs', leaf, cells, i, found, s', hplug, hcov', hcut, hfound, hseen, hrun⟩ :=
        ih (s := s.fetched id) (by rw [view_fetched, hm]) (hk k hkmem) (hw.2 k hkmem)
          (hs.sublist hsub) hcov' (by omega)
      rw [← hm] at hn
      refine ⟨cs', leaf, cells, i, found, s', hplug, hcov', hcut, hfound,
        (Seen.node hn).trans hseen, ?_⟩
      rw [PageTree.id_branch, descend, bind_ok (node_run hn)]
      dsimp only
      rw [hfind, bind_ok (need_some_apply _ _), hchild, bind_ok (need_some_apply _ _), hrun]

/-- **The greatest key below a page.** -/
theorem greatestFrom_run {fuel : Nat} {g : Key} (hm : s.view = m) (h : Held m root up t)
    (hw : t.Within f top) (hg : t.greatest? = some g) (hfuel : t.height ≤ fuel) :
    ∃ s', s.Seen s' ∧ greatestFrom fuel t.id s = (.ok g, s') := by
  induction fuel generalizing t up s top with
  | zero => exact absurd hfuel (Nat.not_le.mpr t.height_pos)
  | succ fuel ih =>
    cases h with
    | @leaf _ id cells p hn _ hc =>
      subst hc
      have hcount : p.count ≤ leafCapacity := View.count_le hn
      rw [← hm] at hn
      rw [PageTree.greatest?, PageTree.keys_leaf, Page.map_key_cells, List.getLast?_eq_getElem?,
        Page.length_cellKeys] at hg
      obtain ⟨hlt, hkey⟩ := List.getElem?_eq_some_iff.mp hg
      rw [Page.length_cellKeys] at hlt
      refine ⟨s.fetched id, .node hn, ?_⟩
      rw [PageTree.id_leaf, greatestFrom, bind_ok (node_run hn)]
      dsimp only
      rw [if_neg (by omega), Page.cellKey?_eq p (by omega), need_some_apply, ← hkey]
      simp [Page.cellKeys]
    | @branch _ id kids p hn _ hc _ hk =>
      rw [PageTree.within_branch] at hw
      rcases List.eq_nil_or_concat' kids with rfl | ⟨init, k, rfl⟩
      · have := PageTree.two_le_kids hw.1.1
        simp at this
      have hkmem : k ∈ init ++ [k] := List.mem_append_right _ List.mem_cons_self
      rw [PageTree.greatest?_branch _ _ (hw.2 k hkmem).cells_ne_nil] at hg
      have hright : p.rightChild = k.id := by
        rw [Page.children_eq, List.map_append, List.map_singleton] at hc
        exact List.singleton_inj.mp (List.append_inj' hc rfl).2
      have hheight := PageTree.height_lt_of_mem_kids (i := id) hkmem
      obtain ⟨s', hseen, hrun⟩ := ih (s := s.fetched id) (by rw [view_fetched, hm]) (hk k hkmem)
        (hw.2 k hkmem) hg (by omega)
      rw [← hm] at hn
      refine ⟨s', (Seen.node hn).trans hseen, ?_⟩
      rw [PageTree.id_branch, greatestFrom, bind_ok (node_run hn)]
      dsimp only
      rw [hright, hrun]

theorem greatest_run {g : Key} (h : Held s.view root up t) (hw : t.Within f top)
    (hg : t.greatest? = some g) : ∃ s', s.Seen s' ∧ greatest t.id s = (.ok g, s') :=
  greatestFrom_run rfl h hw hg (Nat.le_trans h.unfolds.height_le (Nat.le_succ maxPages))

/-- **The search for a key** ends on the spot where it is or belongs. -/
theorem search_run {T : Tree} (h : Rooted s.view T.root f t) (key : Key) :
    ∃ (sp : t.Spot key) (found : Bool) (s' : Pager), (found = true ↔ key ∈ t.keys) ∧ s.Seen s' ∧
      T.search key s = (.ok ⟨sp.leaf, sp.index, found⟩, s') := by
  have hcov : Covers [] t key :=
    ⟨fun _ hx => absurd hx List.not_mem_nil, fun _ hx => absurd hx List.not_mem_nil,
      .inl rightmost_nil⟩
  obtain ⟨cs, id, cells, i, found, s', hplug, hcov, hcut, hfound, hseen, hrun⟩ :=
    descend_run rfl h.held h.within h.ordered hcov
      (Nat.le_trans h.held.unfolds.height_le (Nat.le_succ maxPages))
  let sp : t.Spot key := ⟨cs, id, cells, i, hplug, hcov, hcut⟩
  refine ⟨sp, found, s', hfound.trans (sp.mem_keys_iff h.ordered).symm, hseen, ?_⟩
  unfold search
  rw [← h.id_eq]
  exact hrun

/-- A search ends on a leaf of the tree. -/
theorem search_leaf {T : Tree} {pos : Position} {p : Page} (h : Rooted s.view T.root f t)
    (hsearch : (T.search key s).1 = .ok pos) (hn : s.view.node? pos.page = some (.leaf, p)) :
    .leaf pos.page p.cells ∈ t.nodes := by
  obtain ⟨sp, found, s', -, -, hrun⟩ := search_run h key
  rw [hrun] at hsearch
  obtain rfl : _ = pos := Except.ok.inj hsearch
  obtain ⟨p', hn', -, hcells, -⟩ := sp.node h.held
  cases hn'.symm.trans hn
  have hmem := PageTree.mem_nodes_plug sp.crumbs (.leaf sp.leaf sp.cells)
  rwa [sp.plug_eq, ← hcells] at hmem

/-- **A lookup** answers the value of the key's cell. -/
theorem get_run {T : Tree} (h : Rooted s.view T.root f t) (key : Key) :
    ∃ r s', s.Seen s' ∧ T.get key s = (.ok r, s') ∧
      ∀ value, r = some value ↔ ⟨key, value⟩ ∈ t.cells := by
  obtain ⟨sp, found, s₁, hfound, hseen₁, hrun₁⟩ := search_run h key
  unfold get
  rw [bind_ok hrun₁]
  dsimp only
  by_cases hmem : key ∈ t.keys
  · obtain ⟨p, hn, -, hcells, -⟩ := sp.node h.held
    have hcell := (sp.mem_keys_iff h.ordered).mp hmem
    rw [← hcells, List.getElem?_map, Option.map_eq_some_iff] at hcell
    obtain ⟨x, hx, rfl⟩ := hcell
    have hxmem : x ∈ t.cells := sp.cells_sublist.subset (hcells ▸ List.mem_of_getElem? hx)
    rw [← hseen₁.view] at hn
    obtain ⟨s₂, hseen₂, hrun₂⟩ := node_seen hn
    refine ⟨some x.value, s₂, hseen₁.trans hseen₂, ?_, fun value => ?_⟩
    · rw [if_pos (hfound.mpr hmem), bind_ok hrun₂]
      dsimp only
      rw [Page.cell?_of_getElem? (View.count_le hn) hx]
      rfl
    · rw [Option.some.injEq]
      refine ⟨fun hv => hv ▸ hxmem, fun hv => ?_⟩
      exact congrArg Cell.value (PageTree.eq_of_key_eq h.ordered hxmem hv rfl)
  · rw [if_neg fun hf => hmem (hfound.mp hf)]
    refine ⟨none, s₁, hseen₁, rfl, fun value => ⟨fun hv => (by cases hv), fun hv => ?_⟩⟩
    exact absurd (List.mem_map_of_mem hv) hmem

/-- A climb that counts is over at the root. -/
theorem counting_top {T : Tree} (h : Held s.view T.root none t) (hid : t.id = T.root)
    (needed : Nat) :
    ∃ s', s.Seen s' ∧ T.counting.round (t.id, needed) s = (.ok (.inl (needed + 1)), s') := by
  obtain ⟨kind, p, hn, hisRoot⟩ := h.node_of_eq_root hid
  obtain ⟨s', hseen, hrun⟩ := node_seen hn
  refine ⟨s', hseen, ?_⟩
  dsimp only [counting]
  rw [bind_ok hrun]
  dsimp only
  rw [if_pos hisRoot, pure_apply]

/-- A climb that counts goes on from a full branch. -/
theorem counting_step {T : Tree} (h : Held s.view T.root none (plug (c :: cs) t))
    (hne : t.id ≠ T.root) (needed : Nat) :
    ∃ s', s.Seen s' ∧ T.counting.round (t.id, needed) s =
      (.ok (if c.beside.length < T.config.internalMax then .inl needed
        else .inr (c.id, needed + 1)), s') := by
  obtain ⟨kind, p, hn, hisRoot, hparent⟩ := (Held.of_plug h).node_of_ne_root hne
  obtain ⟨s₁, hseen₁, hrun₁⟩ := node_seen hn
  obtain ⟨q, hq, -, hcount⟩ := h.node_of_plug
  rw [← hseen₁.view] at hq
  obtain ⟨s₂, hseen₂, hrun₂⟩ := node_seen hq
  refine ⟨s₂, hseen₁.trans hseen₂, ?_⟩
  dsimp only [counting]
  rw [bind_ok hrun₁]
  dsimp only
  rw [if_neg hisRoot, hparent, bind_ok hrun₂]
  dsimp only
  rw [hcount]
  split <;> rfl

/-- **The pages counted for a split** of the node that crumbs lead to. -/
theorem splitCost_run {T : Tree} {fuel : Nat} (h : Held s.view T.root none (plug cs t))
    (hid : (plug cs t).id = T.root) (hnd : (plug cs t).pages.Nodup) (hfuel : cs.length < fuel)
    (needed : Nat) :
    ∃ s', s.Seen s' ∧ T.splitCost fuel t.id needed s = (.ok (needed + risers T.config cs), s') := by
  induction cs generalizing t s fuel needed with
  | nil =>
    obtain ⟨fuel, rfl⟩ := Nat.exists_eq_succ_of_ne_zero (Nat.ne_of_gt hfuel)
    obtain ⟨s', hseen, hround⟩ := counting_top h hid needed
    exact ⟨s', hseen, Loop.walk_of_done hround⟩
  | cons c cs ih =>
    obtain ⟨fuel, rfl⟩ := Nat.exists_eq_succ_of_ne_zero (Nat.ne_of_gt (Nat.lt_trans
      (Nat.succ_pos _) hfuel))
    obtain ⟨s₁, hseen, hround⟩ := counting_step h (hid ▸ PageTree.id_ne_plug hnd) needed
    rw [risers]
    by_cases hroom : c.beside.length < T.config.internalMax
    · rw [if_pos hroom] at hround ⊢
      exact ⟨s₁, hseen, Loop.walk_of_done hround⟩
    · have hsum : needed + (risers T.config cs + 1) = needed + 1 + risers T.config cs := by omega
      rw [if_neg hroom] at hround ⊢
      rw [← hseen.view] at h
      obtain ⟨s', hseen', hrun⟩ := ih (t := c.around [t]) h hid hnd (Nat.lt_of_succ_lt_succ hfuel)
        (needed + 1)
      rw [hsum]
      exact ⟨s', hseen.trans hseen', (Loop.walk_of_next hround).trans hrun⟩

end Tree

end PagedTable
