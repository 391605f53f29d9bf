import PagedTable.Proofs.Node.Search
import PagedTable.Proofs.PageTree.Graft

/-!
# Where a key belongs

* `Crumb.Covers`: a key belongs into the subtree that a way down leads to. `Crumb.Covers.step` goes
  one step further down.
* `PageTree.Spot`: the leaf that covers a key, and the index there where the key is or belongs.
* `Spot.grown`: the tree with a new cell on the spot. It holds the new cell and the old ones in
  order (`Spot.ordered_grown`), and its nodes are as full as before (`Spot.within_grown`).
* `Spot.node`: the page of the leaf.
-/

namespace PagedTable

open Crumb
open PageTree (plug graft)

variable {f : Fill} {t : PageTree} {c : Crumb} {cs : List Crumb} {key : Key} {kids : List PageTree}

/-! ## The child that covers a key -/

/-- Separators are in the order of the subtrees. -/
theorem separators_pairwise {seps : List Key} (hs : (kids.flatMap PageTree.keys).Pairwise (· < ·))
    (hseps : seps.map some = kids.dropLast.map PageTree.greatest?) : seps.Pairwise (· < ·) := by
  have hkids := (List.pairwise_flatMap.mp hs).2.sublist (List.dropLast_sublist kids)
  have hmap : (seps.map some).Pairwise fun a b => ∀ x ∈ a, ∀ y ∈ b, x < y := by
    rw [hseps, List.pairwise_map]
    exact hkids.imp fun h x hx y hy =>
      h x (PageTree.greatest?_mem hx) y (PageTree.greatest?_mem hy)
  rw [List.pairwise_map] at hmap
  exact hmap.imp fun h => h _ rfl _ rfl

/-- The subtree that the separators choose for a key. -/
theorem exists_covering {seps : List Key} {i : Nat} (hne : kids ≠ [])
    (hseps : seps.map some = kids.dropLast.map PageTree.greatest?) (hcut : Cuts seps key i) :
    ∃ before k after, kids = before ++ [k] ++ after ∧ before.length = i ∧
      (∀ j ∈ before, ∃ g, j.greatest? = some g ∧ g < key) ∧
      (after = [] ∨ ∃ g, k.greatest? = some g ∧ key ≤ g) := by
  have hlen : seps.length = kids.length - 1 := by
    have := congrArg List.length hseps
    simpa using this
  have hpos : 0 < kids.length := List.length_pos_of_ne_nil hne
  have hi := hcut.le_length
  have hsep : ∀ j (hj : j < seps.length) (hjk : j < kids.length),
      kids[j].greatest? = some seps[j] := by
    intro j hj hjk
    have := List.getElem_of_eq hseps (i := j) (by rwa [List.length_map])
    simpa using this.symm
  have hik : i < kids.length := by omega
  refine ⟨kids.take i, kids[i], kids.drop (i + 1), ?_, ?_, ?_, ?_⟩
  · rw [List.append_assoc, List.singleton_append, List.getElem_cons_drop, List.take_append_drop]
  · rw [List.length_take]
    omega
  · intro j hj
    obtain ⟨x, hx, rfl⟩ := List.mem_take_iff_getElem.mp hj
    refine ⟨_, hsep x (by omega) (by omega), hcut.lt _ ?_⟩
    exact List.mem_take_iff_getElem.mpr ⟨x, by omega, rfl⟩
  · by_cases hlast : i < seps.length
    · refine .inr ⟨_, hsep i hlast hik, hcut.le _ ?_⟩
      exact List.mem_drop_iff_getElem.mpr ⟨0, by omega, rfl⟩
    · exact .inl (List.drop_eq_nil_of_le (by omega))

/-- `key` belongs into the subtree that the crumbs lead to. -/
structure Crumb.Covers (cs : List Crumb) (t : PageTree) (key : Key) : Prop where
  left : ∀ x ∈ leftCells cs, x.key < key
  right : ∀ x ∈ rightCells cs, key < x.key
  le_greatest : Rightmost cs ∨ ∃ g, t.greatest? = some g ∧ key ≤ g

/-- One step further down. -/
theorem Crumb.Covers.step (h : Covers cs (c.around [t]) key)
    (hs : (c.around [t]).keys.Pairwise (· < ·)) (hne : t.cells ≠ [])
    (hbefore : ∀ j ∈ c.before, ∃ g, j.greatest? = some g ∧ g < key)
    (hafter : c.after = [] ∨ ∃ g, t.greatest? = some g ∧ key ≤ g) : Covers (c :: cs) t key := by
  have hkids : (c.before ++ [t] ++ c.after).Pairwise
      fun a b => ∀ x ∈ a.keys, ∀ y ∈ b.keys, x < y := by
    rw [around, PageTree.keys_branch] at hs
    exact (List.pairwise_flatMap.mp hs).2
  have hsub : ∀ j ∈ c.before ++ [t] ++ c.after, j.keys.Pairwise (· < ·) := fun j hj =>
    hs.sublist (PageTree.keys_sublist_of_mem_nodes (PageTree.mem_nodes_of_mem_kids hj))
  constructor
  case left =>
    intro x hx
    rcases List.mem_append.mp hx with hx | hx
    · exact h.left x hx
    · obtain ⟨j, hj, hx⟩ := List.mem_flatMap.mp hx
      obtain ⟨g, hg, hlt⟩ := hbefore j hj
      have hle : x.key ≤ g :=
        PageTree.le_greatest? (hsub j (by simp [hj])) hg (List.mem_map_of_mem hx)
      exact UInt32.lt_of_le_of_lt hle hlt
  case right =>
    intro x hx
    rcases List.mem_append.mp hx with hx | hx
    · obtain ⟨j, hj, hx⟩ := List.mem_flatMap.mp hx
      rcases hafter with hnil | ⟨g, hg, hle⟩
      · rw [hnil] at hj
        cases hj
      · have hlt := (List.pairwise_append.mp hkids).2.2 t (by simp) j hj
        exact UInt32.lt_of_le_of_lt hle
          (hlt g (PageTree.greatest?_mem hg) x.key (List.mem_map_of_mem hx))
    · exact h.right x hx
  case le_greatest =>
    by_cases hnil : c.after = []
    · rcases h.le_greatest with hr | ⟨g, hg, hle⟩
      · exact .inl (rightmost_cons.mpr ⟨hnil, hr⟩)
      · rw [around, hnil, List.append_nil, PageTree.greatest?_branch _ _ hne] at hg
        exact .inr ⟨g, hg, hle⟩
    · exact .inr (hafter.resolve_left hnil)

/-! ## Spots -/

/-- The place for a key in a tree. -/
structure PageTree.Spot (t : PageTree) (key : Key) where
  crumbs : List Crumb
  leaf : PageId
  cells : List Cell
  index : Nat
  plug_eq : plug crumbs (.leaf leaf cells) = t
  covers : Covers crumbs (.leaf leaf cells) key
  cuts : Cuts (cells.map Cell.key) key index

namespace PageTree.Spot

variable {cfg : Config} {fresh : Nat} {x : Cell} {m : View} {root : PageId}

/-- The cells of the tree that come before the spot. -/
def before (sp : t.Spot key) : List Cell := leftCells sp.crumbs ++ sp.cells.take sp.index

/-- The cells of the tree from the spot on. -/
def after (sp : t.Spot key) : List Cell := sp.cells.drop sp.index ++ rightCells sp.crumbs

/-- The pages that a new cell on the spot takes. -/
def cost (cfg : Config) (sp : t.Spot key) : Nat :=
  if sp.cells.length < cfg.leafMax then 0 else 1 + risers cfg sp.crumbs

/-- The tree with a new cell on the spot. New pages are numbered from `fresh` on. -/
def grown (cfg : Config) (fresh : Nat) (sp : t.Spot key) (x : Cell) : PageTree :=
  let cells := sp.cells.insertIdx sp.index x
  if sp.cells.length < cfg.leafMax then plug sp.crumbs (.leaf sp.leaf cells)
  else
    let half := (cells.length + 1) / 2
    graft cfg (fresh + 1) sp.crumbs (.leaf sp.leaf (cells.take half))
      (.leaf (.ofIndex fresh) (cells.drop half))

theorem grown_of_room (sp : t.Spot key) (h : sp.cells.length < cfg.leafMax) :
    sp.grown cfg fresh x =
      plug sp.crumbs (.leaf sp.leaf (sp.cells.insertIdx sp.index x)) := if_pos h

theorem grown_of_full (sp : t.Spot key) (h : cfg.leafMax ≤ sp.cells.length) :
    sp.grown cfg fresh x =
      graft cfg (fresh + 1) sp.crumbs
        (.leaf sp.leaf ((sp.cells.insertIdx sp.index x).take
          (((sp.cells.insertIdx sp.index x).length + 1) / 2)))
        (.leaf (.ofIndex fresh) ((sp.cells.insertIdx sp.index x).drop
          (((sp.cells.insertIdx sp.index x).length + 1) / 2))) := if_neg (Nat.not_lt.mpr h)

theorem cost_of_room (sp : t.Spot key) (h : sp.cells.length < cfg.leafMax) : sp.cost cfg = 0 :=
  if_pos h

theorem cost_of_full (sp : t.Spot key) (h : cfg.leafMax ≤ sp.cells.length) :
    sp.cost cfg = 1 + risers cfg sp.crumbs := if_neg (Nat.not_lt.mpr h)

/-- A new cell takes a page for each level at most, and one for a new root. -/
theorem cost_le (cfg : Config) (sp : t.Spot key) : sp.cost cfg ≤ t.height + 1 := by
  have hheight := PageTree.height_plug sp.crumbs (.leaf sp.leaf sp.cells)
  have hrisers := risers_le cfg sp.crumbs
  rw [sp.plug_eq, height_leaf] at hheight
  rw [cost]
  split <;> omega

theorem index_le (sp : t.Spot key) : sp.index ≤ sp.cells.length := by
  have := sp.cuts.le_length
  rwa [List.length_map] at this

theorem cells_eq (sp : t.Spot key) : t.cells = sp.before ++ sp.after := by
  conv_lhs => rw [← sp.plug_eq, cells_plug, cells_leaf, ← List.take_append_drop sp.index sp.cells]
  simp only [before, after, List.append_assoc]

/-- What comes before the spot is smaller than the key. -/
theorem lt_of_mem_before (sp : t.Spot key) {y : Cell} (hy : y ∈ sp.before) : y.key < key := by
  rcases List.mem_append.mp hy with hy | hy
  · exact sp.covers.left y hy
  · refine sp.cuts.lt _ ?_
    rw [← List.map_take]
    exact List.mem_map_of_mem hy

/-- What comes from the spot on is at least the key. -/
theorem le_of_mem_after (sp : t.Spot key) {y : Cell} (hy : y ∈ sp.after) : key ≤ y.key := by
  rcases List.mem_append.mp hy with hy | hy
  · refine sp.cuts.le _ ?_
    rw [← List.map_drop]
    exact List.mem_map_of_mem hy
  · exact UInt32.le_of_lt (sp.covers.right y hy)

theorem cells_sublist (sp : t.Spot key) : sp.cells.Sublist t.cells := by
  have hmem := PageTree.mem_nodes_plug sp.crumbs (.leaf sp.leaf sp.cells)
  rw [sp.plug_eq] at hmem
  exact PageTree.cells_leaf sp.leaf sp.cells ▸ PageTree.cells_sublist_of_mem_nodes hmem

theorem keys_sublist (sp : t.Spot key) : (sp.cells.map Cell.key).Sublist t.keys :=
  sp.cells_sublist.map _

/-- The key is in the tree exactly if it is at the spot. -/
theorem mem_keys_iff (sp : t.Spot key) (hs : t.keys.Pairwise (· < ·)) :
    key ∈ t.keys ↔ (sp.cells.map Cell.key)[sp.index]? = some key := by
  refine ⟨fun hmem => ?_, fun hkey => sp.keys_sublist.subset (List.mem_of_getElem? hkey)⟩
  obtain ⟨y, hy, hkey⟩ := List.mem_map.mp hmem
  rw [sp.cells_eq, List.mem_append] at hy
  have hafter : y ∈ sp.after := hy.resolve_left fun hy => by
    have hlt := sp.lt_of_mem_before hy
    rw [hkey] at hlt
    exact UInt32.lt_irrefl key hlt
  have hdrop : y ∈ sp.cells.drop sp.index := (List.mem_append.mp hafter).resolve_right fun hy => by
    have hlt := sp.covers.right y hy
    rw [hkey] at hlt
    exact UInt32.lt_irrefl key hlt
  obtain ⟨j, hj, rfl⟩ := List.mem_drop_iff_getElem.mp hdrop
  have hsorted := hs.sublist sp.keys_sublist
  cases j with
  | zero =>
    rw [List.getElem?_eq_getElem (by rw [List.length_map]; omega), List.getElem_map]
    exact congrArg some hkey
  | succ j =>
    -- The cell at the spot would be smaller than this one, but it is no smaller than the key.
    have hlt := getElem_lt hsorted (a := sp.index) (b := sp.index + (j + 1)) (by omega)
      (by rw [List.length_map]; omega)
    rw [List.getElem_map, List.getElem_map, hkey] at hlt
    have hat : sp.cells[sp.index] ∈ sp.after :=
      List.mem_append_left _ (List.mem_drop_iff_getElem.mpr ⟨0, by omega, rfl⟩)
    exact absurd hlt (UInt32.not_lt.mpr (sp.le_of_mem_after hat))

theorem insertIdx_cells (sp : t.Spot key) (x : Cell) :
    sp.cells.insertIdx sp.index x = sp.cells.take sp.index ++ x :: sp.cells.drop sp.index := by
  have h := insertIdx_append (sp.cells.take sp.index) (sp.cells.drop sp.index) x
  rwa [List.take_append_drop, List.length_take, Nat.min_eq_left sp.index_le] at h

theorem length_insertIdx (sp : t.Spot key) (x : Cell) :
    (sp.cells.insertIdx sp.index x).length = sp.cells.length + 1 :=
  List.length_insertIdx_of_le_length sp.index_le _

/-- A key that comes last in its leaf comes last of all. -/
theorem index_lt_or (sp : t.Spot key) : sp.index < sp.cells.length ∨ Rightmost sp.crumbs := by
  refine sp.covers.le_greatest.symm.imp_left fun ⟨g, hg, hle⟩ => ?_
  by_contra hlast
  have hmem : g ∈ (sp.cells.map Cell.key).take sp.index := by
    rw [List.take_of_length_le (by rw [List.length_map]; omega), ← keys_leaf sp.leaf]
    exact PageTree.greatest?_mem hg
  exact UInt32.lt_irrefl g (UInt32.lt_of_lt_of_le (sp.cuts.lt g hmem) hle)

/-- The leaf ends with the same key as before, or no separator stands for it. -/
theorem greatest?_insertIdx (sp : t.Spot key) (x : Cell) :
    (PageTree.leaf sp.leaf (sp.cells.insertIdx sp.index x)).greatest? =
      (PageTree.leaf sp.leaf sp.cells).greatest? ∨ Rightmost sp.crumbs := by
  refine sp.index_lt_or.imp_left fun hlt => ?_
  have hne : sp.cells.drop sp.index ≠ [] := by simpa using hlt
  have hlast : (sp.cells.insertIdx sp.index x).getLast? = sp.cells.getLast? := by
    conv_rhs => rw [← List.take_append_drop sp.index sp.cells]
    rw [sp.insertIdx_cells, List.getLast?_append_of_ne_nil _ (List.cons_ne_nil _ _),
      List.getLast?_append_of_ne_nil _ hne, ← List.singleton_append,
      List.getLast?_append_of_ne_nil _ hne]
  rw [PageTree.greatest?, PageTree.greatest?, keys_leaf, keys_leaf, List.getLast?_map,
    List.getLast?_map, hlast]

/-- **The cells of the grown tree.** -/
theorem cells_grown (sp : t.Spot key) :
    (sp.grown cfg fresh x).cells = sp.before ++ x :: sp.after := by
  by_cases hroom : sp.cells.length < cfg.leafMax
  · rw [sp.grown_of_room hroom, cells_plug, cells_leaf, sp.insertIdx_cells]
    simp [before, after]
  · rw [sp.grown_of_full (Nat.le_of_not_lt hroom), cells_graft, cells_leaf, cells_leaf,
      List.take_append_drop, sp.insertIdx_cells]
    simp [before, after]

theorem cells_grown_perm (sp : t.Spot key) :
    (sp.grown cfg fresh x).cells.Perm (x :: t.cells) := by
  rw [sp.cells_grown, sp.cells_eq]
  exact List.perm_middle

theorem mem_cells_grown (sp : t.Spot key) {y : Cell} :
    y ∈ (sp.grown cfg fresh x).cells ↔ y = x ∨ y ∈ t.cells :=
  sp.cells_grown_perm.mem_iff.trans List.mem_cons

theorem id_grown (sp : t.Spot key) : (sp.grown cfg fresh x).id = t.id := by
  rw [← congrArg PageTree.id sp.plug_eq]
  by_cases hroom : sp.cells.length < cfg.leafMax
  · rw [sp.grown_of_room hroom]
    exact PageTree.id_plug rfl
  · rw [sp.grown_of_full (Nat.le_of_not_lt hroom)]
    exact PageTree.id_graft rfl

/-- **Keys stay in order.** -/
theorem ordered_grown (sp : t.Spot key) (hs : t.keys.Pairwise (· < ·)) (hx : x.key = key)
    (hkey : key ∉ t.keys) : (sp.grown cfg fresh x).keys.Pairwise (· < ·) := by
  have hne : ∀ y ∈ sp.after, y.key ≠ key := by
    rintro y hy rfl
    refine hkey (List.mem_map_of_mem ?_)
    rw [sp.cells_eq]
    exact List.mem_append_right _ hy
  have hlt : ∀ y ∈ sp.after, key < y.key := fun y hy =>
    UInt32.lt_of_le_of_ne (sp.le_of_mem_after hy) (hne y hy).symm
  rw [PageTree.keys, sp.cells_eq, List.pairwise_map, List.pairwise_append] at hs
  obtain ⟨hbefore, hafter, hcross⟩ := hs
  rw [PageTree.keys, sp.cells_grown, List.pairwise_map, List.pairwise_append, List.pairwise_cons,
    hx]
  refine ⟨hbefore, ⟨hlt, hafter⟩, fun y hy z hz => ?_⟩
  rcases List.mem_cons.mp hz with rfl | hz
  · rw [hx]
    exact sp.lt_of_mem_before hy
  · exact hcross y hy z hz

/-- The halves of a leaf that overflows are full enough. -/
theorem within_leaf_halves {cells : List Cell} (ha : f.Admits cfg)
    (hlo : cfg.leafMax < cells.length) (hhi : cells.length ≤ f.leafHi + 1) (i j : PageId) :
    (PageTree.leaf i (cells.take ((cells.length + 1) / 2))).Within f false ∧
      (PageTree.leaf j (cells.drop ((cells.length + 1) / 2))).Within f false := by
  have hmax : 2 ≤ cfg.leafMax := cfg.two_le_leafMax
  have hleafHi := ha.leafMax_le
  have hleafLo := ha.leafLo_le
  obtain ⟨hlower, hupper⟩ := PageTree.halves_fit (by omega : 2 * f.leafLo ≤ cells.length) hhi
    (by omega)
  constructor
  · rw [PageTree.within_leaf, List.length_take, Nat.min_eq_left (by omega)]
    exact ⟨fun _ => hlower.1, hlower.2⟩
  · rw [PageTree.within_leaf, List.length_drop]
    exact ⟨fun _ => hupper.1, hupper.2⟩

/-- A tree is as full as the bounds ask around a full leaf that is split, and so are the halves. -/
theorem within_split (sp : t.Spot key) (ha : f.Admits cfg) (hw : t.Within f true)
    (hfull : cfg.leafMax ≤ sp.cells.length) {cells : List Cell}
    (hinsert : sp.cells.insertIdx sp.index x = cells) (i j : PageId) :
    Crumb.Within f sp.crumbs ∧
      (PageTree.leaf i (cells.take ((cells.length + 1) / 2))).Within f false ∧
        (PageTree.leaf j (cells.drop ((cells.length + 1) / 2))).Within f false := by
  obtain ⟨hleaf, hcrumbs⟩ := PageTree.within_plug.mp (sp.plug_eq ▸ hw)
  have hhi := (PageTree.within_leaf.mp hleaf).2
  have hlen := sp.length_insertIdx x
  rw [hinsert] at hlen
  exact ⟨hcrumbs, within_leaf_halves ha (by omega) (by omega) i j⟩

/-- **Nodes stay as full** as the bounds ask. -/
theorem within_grown (sp : t.Spot key) (ha : f.Admits cfg) (hw : t.Within f true) :
    (sp.grown cfg fresh x).Within f true := by
  obtain ⟨hleaf, hcrumbs⟩ := PageTree.within_plug.mp (sp.plug_eq ▸ hw)
  rw [PageTree.within_leaf] at hleaf
  have hlen := sp.length_insertIdx x
  by_cases hroom : sp.cells.length < cfg.leafMax
  · rw [sp.grown_of_room hroom]
    refine PageTree.within_plug.mpr ⟨?_, hcrumbs⟩
    rw [PageTree.within_leaf, hlen]
    have hmax := ha.leafMax_le
    exact ⟨fun htop => Nat.le_succ_of_le (hleaf.1 htop), by omega⟩
  · rw [sp.grown_of_full (Nat.le_of_not_lt hroom)]
    obtain ⟨-, hlower, hupper⟩ := sp.within_split (x := x) ha hw (Nat.le_of_not_lt hroom) rfl
      sp.leaf (PageId.ofIndex fresh)
    exact PageTree.within_graft ha hcrumbs hlower hupper

/-! ## The pages of a spot -/

/-- The page of the leaf. -/
theorem node (sp : t.Spot key) (h : Held m root none t) :
    ∃ p, m.node? sp.leaf = some (.leaf, p) ∧ p.Placed root (Crumb.up sp.crumbs) sp.leaf ∧
      p.cells = sp.cells ∧ p.count = sp.cells.length := by
  rw [← sp.plug_eq] at h
  exact h.leaf_of_plug

theorem pages_perm (sp : t.Spot key) : t.pages.Perm (sp.leaf :: Crumb.pages sp.crumbs) := by
  have h := PageTree.pages_plug sp.crumbs (.leaf sp.leaf sp.cells)
  rwa [sp.plug_eq, pages_leaf] at h

/-- The leaf holds no more cells than the bounds allow. -/
theorem length_le (sp : t.Spot key) (h : t.Within f true) : sp.cells.length ≤ f.leafHi :=
  (PageTree.within_leaf.mp (PageTree.within_plug.mp (sp.plug_eq ▸ h)).1).2

/-- **The pages of the grown tree** are those of the tree and the new ones. -/
theorem pages_grown (sp : t.Spot key) :
    (sp.grown cfg fresh x).pages.Perm
      (t.pages ++ (List.range' fresh (sp.cost cfg)).map PageId.ofIndex) := by
  refine List.perm_iff_count.mpr fun a => ?_
  have hpages := sp.pages_perm.count_eq a
  by_cases hroom : sp.cells.length < cfg.leafMax
  · have hplug := (pages_plug sp.crumbs
      (.leaf sp.leaf (sp.cells.insertIdx sp.index x))).count_eq a
    rw [sp.grown_of_room hroom, sp.cost_of_room hroom, List.range'_zero, List.map_nil]
    simp only [pages_leaf, List.count_append, List.count_cons, List.count_nil] at hplug hpages ⊢
    omega
  · have hfull := Nat.le_of_not_lt hroom
    rw [sp.grown_of_full hfull, sp.cost_of_full hfull, Nat.add_comm 1, List.range'_succ,
      List.map_cons, (pages_graft ..).count_eq a]
    simp only [pages_leaf, List.count_append, List.count_cons, List.count_nil] at hpages ⊢
    omega

theorem leaf_notMem (sp : t.Spot key) (hnd : t.pages.Nodup) : sp.leaf ∉ Crumb.pages sp.crumbs :=
  (List.nodup_cons.mp (sp.pages_perm.nodup_iff.mp hnd)).1

/-- The whole tree, opened at the leaf. -/
theorem opened {s : Pager} (sp : t.Spot key) (h : Rooted s.view root f t) :
    Held s.view root none (plug sp.crumbs (.leaf sp.leaf sp.cells)) ∧
      (plug sp.crumbs (.leaf sp.leaf sp.cells)).id = root ∧
      (plug sp.crumbs (.leaf sp.leaf sp.cells)).pages.Nodup ∧ sp.crumbs.length < walkLength := by
  rw [sp.plug_eq]
  exact ⟨h.held, h.id_eq, h.nodup, h.held.unfolds.length_crumbs_lt sp.plug_eq⟩

end PageTree.Spot

end PagedTable
