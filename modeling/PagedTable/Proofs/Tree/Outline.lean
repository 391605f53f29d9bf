import PagedTable.Proofs.PageTree.Held
import PagedTable.Tree.Outline

/-!
# What the outline shows

* `PageTree.outline`: the lines of a tree, each subtree but the last followed by its greatest key.
* `PageTree.filterMap_leafKey?_outline`: the keys of the leaves stand there in their order.
* `outline_run`, `dump_run`: the outline of a whole tree is that of the pages.
-/

namespace PagedTable

open PagedTable.Action Pager

/-- The key that a line shows, if it is one of a leaf. -/
def OutlineLine.leafKey? (l : OutlineLine) : Option Key :=
  match l.item with
  | .key k => some k
  | _ => none

namespace PageTree

/-- The lines of a subtree and its greatest key. -/
def closeOutline (depth : Nat) (x : List OutlineLine × Option Key) : List OutlineLine :=
  x.1 ++ x.2.toList.map (⟨depth, .separator ·⟩)

/-- The lines of subtrees from left to right. The greatest key of each but the last follows it. -/
def joinOutlines (depth : Nat) (xs : List (List OutlineLine × Option Key)) : List OutlineLine :=
  xs.dropLast.flatMap (closeOutline depth) ++ xs.getLast?.toList.flatMap Prod.fst

/-- The lines of a tree. -/
def outline (depth : Nat) : PageTree → List OutlineLine
  | leaf id cells => ⟨depth, .leaf id cells.length⟩ :: cells.map fun x => ⟨depth, .key x.key⟩
  | branch id kids => ⟨depth, .internal id (kids.length - 1)⟩ ::
      joinOutlines depth (kids.map fun k => (k.outline (depth + 1), k.greatest?))

theorem outline_leaf (depth : Nat) (i : PageId) (cs : List Cell) :
    (leaf i cs).outline depth =
      ⟨depth, .leaf i cs.length⟩ :: cs.map fun x => ⟨depth, .key x.key⟩ := by rw [outline]

theorem outline_branch (depth : Nat) (i : PageId) (ks : List PageTree) :
    (branch i ks).outline depth = ⟨depth, .internal i (ks.length - 1)⟩ ::
      joinOutlines depth (ks.map fun k => (k.outline (depth + 1), k.greatest?)) := by rw [outline]

theorem joinOutlines_concat (depth : Nat) (xs : List (List OutlineLine × Option Key))
    (x : List OutlineLine × Option Key) :
    joinOutlines depth (xs ++ [x]) = xs.flatMap (closeOutline depth) ++ x.1 := by
  simp [joinOutlines]

/-- What separators do not have is only in the subtrees. -/
theorem filterMap_joinOutlines {α : Type} {g : OutlineLine → Option α} {depth : Nat}
    (hg : ∀ k, g ⟨depth, .separator k⟩ = none) (xs : List (List OutlineLine × Option Key)) :
    (joinOutlines depth xs).filterMap g = xs.flatMap fun x => x.1.filterMap g := by
  have hclose : ∀ x : List OutlineLine × Option Key,
      (closeOutline depth x).filterMap g = x.1.filterMap g := by
    rintro ⟨lines, greatest⟩
    rw [closeOutline, List.filterMap_append]
    cases greatest <;> simp [hg]
  rcases List.eq_nil_or_concat' xs with rfl | ⟨init, x, rfl⟩
  · rfl
  · rw [joinOutlines_concat, List.filterMap_append, List.filterMap_flatMap, List.flatMap_append,
      List.flatMap_singleton]
    simp only [hclose]

/-- **The keys of the leaves** stand in the outline in their order. -/
theorem filterMap_leafKey?_outline (depth : Nat) (t : PageTree) :
    (t.outline depth).filterMap OutlineLine.leafKey? = t.keys := by
  induction t generalizing depth with
  | leaf id cells =>
    have hcells : (cells.map fun x => (⟨depth, .key x.key⟩ : OutlineLine)).filterMap
        OutlineLine.leafKey? = cells.map Cell.key := by
      rw [List.filterMap_map]
      exact congrFun (List.filterMap_eq_map (f := Cell.key)) cells
    rw [outline_leaf, keys_leaf, List.filterMap_cons, hcells]
    rfl
  | branch id kids ih =>
    rw [outline_branch, keys_branch, List.filterMap_cons]
    show (joinOutlines depth _).filterMap OutlineLine.leafKey? = _
    rw [filterMap_joinOutlines fun _ => rfl, List.flatMap_map]
    exact List.flatMap_congr fun k hk => ih k hk (depth + 1)

end PageTree

/-! ## Runs -/

namespace Tree

variable {m : View} {s : Pager} {root : PageId} {up : Option PageId} {f : Fill} {top : Bool}
  {t : PageTree}

/-- The lines of subtrees that have a separator. -/
theorem outlineLinks_run {outline : PageId → Action Pager (List OutlineLine)} {depth : Nat}
    {kids : List PageTree} {links : List (Key × PageId)}
    (houtline : ∀ {s : Pager} {k}, s.view = m → k ∈ kids →
      ∃ s', s.Seen s' ∧ outline k.id s = (.ok (k.outline (depth + 1)), s'))
    (hm : s.view = m) (hids : links.map Prod.snd = kids.map PageTree.id)
    (hgs : links.map (fun l => some l.1) = kids.map PageTree.greatest?) :
    ∃ s', s.Seen s' ∧ outlineLinks outline depth links s =
      (.ok ((kids.map fun k => (k.outline (depth + 1), k.greatest?)).flatMap
        (PageTree.closeOutline depth)), s') := by
  induction kids generalizing links s with
  | nil =>
    obtain rfl : links = [] := List.map_eq_nil_iff.mp hids
    exact ⟨s, .refl s, rfl⟩
  | cons k kids ih =>
    rcases links with _ | ⟨⟨key, child⟩, links⟩
    · cases hids
    rw [List.map_cons, List.map_cons, List.cons.injEq] at hids hgs
    obtain ⟨hchild, hids⟩ := hids
    obtain ⟨hkey, hgs⟩ := hgs
    obtain rfl : child = k.id := hchild
    obtain ⟨s₁, hseen₁, hrun₁⟩ := houtline hm List.mem_cons_self
    obtain ⟨s₂, hseen₂, hrun₂⟩ := ih
      (fun hm hk => houtline hm (List.mem_cons_of_mem _ hk)) (by rw [hseen₁.view, hm]) hids hgs
    refine ⟨s₂, hseen₁.trans hseen₂, ?_⟩
    rw [outlineLinks, bind_ok hrun₁, bind_ok hrun₂, pure_apply, List.map_cons, List.flatMap_cons,
      PageTree.closeOutline, ← hkey]
    simp

/-- **The lines of a subtree.** -/
theorem outlineNode_run {fuel depth : Nat} (hm : s.view = m) (h : Held m root up t)
    (hw : t.Within f top) (hfuel : t.height ≤ fuel) :
    ∃ s', s.Seen s' ∧ outlineNode fuel depth t.id s = (.ok (t.outline depth), s') := by
  induction fuel generalizing t up s top depth with
  | zero => exact absurd hfuel (Nat.not_le.mpr t.height_pos)
  | succ fuel ih =>
    cases h with
    | @leaf _ id cells p hn _ hc =>
      subst hc
      rw [← hm] at hn
      refine ⟨s.fetched id, .node hn, ?_⟩
      rw [PageTree.id_leaf, outlineNode, bind_ok (node_run hn)]
      dsimp only
      rw [Page.cellKeys?_eq (View.count_le hn), bind_ok (need_some_apply _ _), pure_apply,
        PageTree.outline_leaf, Page.length_cells, ← Page.map_key_cells, List.map_map]
      rfl
    | @branch _ id kids p hn _ hc hs hk =>
      rw [PageTree.within_branch] at hw
      have hlen : p.count = kids.length - 1 := Nat.eq_sub_of_add_eq (Page.count_of_children hc)
      obtain ⟨init, r, rfl, hr, hids, hgs⟩ := Page.exists_last hc hs
      have hheight : ∀ k ∈ init ++ [r], k.height ≤ fuel := fun k hk => by
        have := PageTree.height_lt_of_mem_kids (i := id) hk
        omega
      have hrmem : r ∈ init ++ [r] := List.mem_append_right _ List.mem_cons_self
      rw [← hm] at hn
      obtain ⟨s₁, hseen₁, hlinks⟩ : ∃ s₁, (s.fetched id).Seen s₁ ∧
          outlineLinks (outlineNode fuel (depth + 1)) depth (p.separators.zip p.children)
            (s.fetched id) = (.ok ((init.map fun k => (k.outline (depth + 1), k.greatest?)).flatMap
              (PageTree.closeOutline depth)), s₁) := by
        refine outlineLinks_run (m := m) (fun hm hk' => ?_) (by rw [view_fetched, hm]) hids hgs
        have hmem := List.mem_append_left [r] hk'
        exact ih hm (hk _ hmem) (hw.2 _ hmem) (hheight _ hmem)
      obtain ⟨s₂, hseen₂, hright⟩ : ∃ s₂, s₁.Seen s₂ ∧
          outlineNode fuel (depth + 1) r.id s₁ = (.ok (r.outline (depth + 1)), s₂) :=
        ih (by rw [hseen₁.view, view_fetched, hm]) (hk r hrmem) (hw.2 r hrmem) (hheight r hrmem)
      rw [← hr] at hright
      refine ⟨s₂, ((Seen.node hn).trans hseen₁).trans hseen₂, ?_⟩
      rw [PageTree.id_branch, outlineNode, bind_ok (node_run hn)]
      dsimp only
      rw [Page.separators?_eq (View.count_le hn), bind_ok (need_some_apply _ _),
        Page.children?_eq (View.count_le hn), bind_ok (need_some_apply _ _), bind_ok hlinks,
        bind_ok hright, pure_apply, PageTree.outline_branch, hlen, List.map_append,
        List.map_singleton, PageTree.joinOutlines_concat, List.cons_append]

/-- **The outline of a whole tree.** -/
theorem outline_run {T : Tree} (h : Rooted s.view T.root f t) :
    ∃ s', s.Seen s' ∧ T.outline s = (.ok (t.outline 0), s') := by
  unfold Tree.outline
  rw [← h.id_eq]
  exact outlineNode_run rfl h.held h.within
    (Nat.le_trans h.held.unfolds.height_le (Nat.le_succ maxPages))

theorem dump_run {T : Tree} (h : Rooted s.view T.root f t) :
    ∃ s', s.Seen s' ∧
      T.dump s = (.ok (String.join ((t.outline 0).map OutlineLine.render)), s') := by
  obtain ⟨s', hseen, hrun⟩ := outline_run h
  exact ⟨s', hseen, bind_ok hrun⟩

end Tree

end PagedTable
