import Mathlib.Data.List.Nodup
import Mathlib.Order.Bounds.Defs
import PagedTable.Config
import PagedTable.Node.Layout

/-!
# The tree that pages unfold to

A `PageTree` is what following all child pointers from a page gives: a leaf with its cells, or a
branch with its subtrees, each with the number of the page it stands on. Separators are not kept:
in a tree that is in order each is the greatest key of its subtree (`PageTree.greatest?`).

* `PageTree.cells`, `PageTree.pages`: the cells from left to right, and the pages from the root
  down.
* `PageTree.Within`: how full the nodes are, the top one apart.
* `PageTree.cells_ne_nil`: a tree within bounds that admit no empty leaf has a cell.
-/

namespace PagedTable

/-- A tree of pages. -/
inductive PageTree where
  | leaf (id : PageId) (cells : List Cell)
  | branch (id : PageId) (kids : List PageTree)

namespace PageTree

/-- Induction with a hypothesis for every subtree of a branch. -/
@[induction_eliminator]
theorem induct {motive : PageTree → Prop} (leaf : ∀ id cells, motive (.leaf id cells))
    (branch : ∀ id kids, (∀ k ∈ kids, motive k) → motive (.branch id kids)) :
    ∀ t, motive t
  | .leaf id cells => leaf id cells
  | .branch id kids => branch id kids fun k _ => induct leaf branch k

/-- The page of the top node. -/
def id : PageTree → PageId
  | leaf id _ => id
  | branch id _ => id

/-- The subtrees below the top node. -/
def kids : PageTree → List PageTree
  | leaf _ _ => []
  | branch _ kids => kids

/-- The same tree with its top node on another page. -/
def moveTo (t : PageTree) (new : PageId) : PageTree :=
  match t with
  | leaf _ cells => leaf new cells
  | branch _ kids => branch new kids

/-- The cells of all leaves, from left to right. -/
def cells : PageTree → List Cell
  | leaf _ cells => cells
  | branch _ kids => kids.flatMap cells

/-- The keys of all leaves, from left to right. -/
def keys (t : PageTree) : List Key := t.cells.map Cell.key

/-- The last key. -/
def greatest? (t : PageTree) : Option Key := t.keys.getLast?

/-- The levels of the tree. -/
def height : PageTree → Nat
  | leaf _ _ => 1
  | branch _ kids => (kids.map height).foldr max 0 + 1

/-- The tree and all its subtrees, a tree before its subtrees. -/
def nodes : PageTree → List PageTree
  | leaf id cells => [leaf id cells]
  | branch id kids => branch id kids :: kids.flatMap nodes

/-- The pages of all nodes, a node before those below it. -/
def pages (t : PageTree) : List PageId := t.nodes.map id

@[simp] theorem id_leaf (i : PageId) (cs : List Cell) : (leaf i cs).id = i := rfl

@[simp] theorem id_branch (i : PageId) (ks : List PageTree) : (branch i ks).id = i := rfl

@[simp] theorem id_moveTo (t : PageTree) (new : PageId) : (t.moveTo new).id = new := by
  cases t <;> rfl

@[simp] theorem cells_leaf (i : PageId) (cs : List Cell) : (leaf i cs).cells = cs := by rw [cells]

@[simp] theorem cells_branch (i : PageId) (ks : List PageTree) :
    (branch i ks).cells = ks.flatMap cells := by rw [cells]

@[simp] theorem cells_moveTo (t : PageTree) (new : PageId) : (t.moveTo new).cells = t.cells := by
  cases t <;> simp [moveTo]

@[simp] theorem keys_leaf (i : PageId) (cs : List Cell) : (leaf i cs).keys = cs.map Cell.key := by
  rw [keys, cells_leaf]

@[simp] theorem keys_branch (i : PageId) (ks : List PageTree) :
    (branch i ks).keys = ks.flatMap keys := by
  rw [keys, cells_branch, List.map_flatMap]
  rfl

@[simp] theorem keys_moveTo (t : PageTree) (new : PageId) : (t.moveTo new).keys = t.keys := by
  rw [keys, keys, cells_moveTo]

@[simp] theorem height_leaf (i : PageId) (cs : List Cell) : (leaf i cs).height = 1 := by rw [height]

@[simp] theorem nodes_leaf (i : PageId) (cs : List Cell) : (leaf i cs).nodes = [leaf i cs] := by
  rw [nodes]

@[simp] theorem nodes_branch (i : PageId) (ks : List PageTree) :
    (branch i ks).nodes = branch i ks :: ks.flatMap nodes := by rw [nodes]

@[simp] theorem pages_leaf (i : PageId) (cs : List Cell) : (leaf i cs).pages = [i] := by
  simp [pages]

@[simp] theorem pages_branch (i : PageId) (ks : List PageTree) :
    (branch i ks).pages = i :: ks.flatMap pages := by
  rw [pages, nodes_branch, List.map_cons, List.map_flatMap]
  rfl

/-- The pages below the top node do not depend on where the top node stands. -/
theorem pages_eq_cons (t : PageTree) : t.pages = t.id :: t.kids.flatMap pages := by
  cases t <;> simp [kids]

theorem pages_moveTo (t : PageTree) (new : PageId) :
    (t.moveTo new).pages = new :: t.kids.flatMap pages := by
  cases t <;> simp [moveTo, kids]

theorem id_mem_pages (t : PageTree) : t.id ∈ t.pages := by
  rw [pages_eq_cons]
  exact List.mem_cons_self

theorem self_mem_nodes (t : PageTree) : t ∈ t.nodes := by
  cases t <;> simp

/-! ## Heights -/

theorem height_lt_of_mem_kids {i : PageId} {ks : List PageTree} {k : PageTree} (hk : k ∈ ks) :
    k.height < (branch i ks).height := by
  rw [height]
  induction ks with
  | nil => cases hk
  | cons a ks ih =>
    rw [List.map_cons, List.foldr_cons]
    rcases List.mem_cons.mp hk with rfl | hk
    · omega
    · have := ih hk
      omega

theorem height_pos (t : PageTree) : 0 < t.height := by
  cases t with
  | leaf i cs => simp
  | branch i ks => rw [height]; omega

/-- A node of a tree is no higher than the tree. -/
theorem height_le_of_mem_nodes {t u : PageTree} (hu : u ∈ t.nodes) : u.height ≤ t.height := by
  induction t with
  | leaf i cs =>
    rw [nodes_leaf, List.mem_singleton] at hu
    subst hu
    exact Nat.le_refl _
  | branch i ks ih =>
    rw [nodes_branch, List.mem_cons, List.mem_flatMap] at hu
    rcases hu with rfl | ⟨k, hk, hu⟩
    · exact Nat.le_refl _
    · exact Nat.le_of_lt (Nat.lt_of_le_of_lt (ih k hk hu) (height_lt_of_mem_kids hk))

/-- Below a branch stands a subtree that is only one level lower. -/
theorem exists_mem_kids_height {i : PageId} {ks : List PageTree} (hne : ks ≠ []) :
    ∃ k ∈ ks, (branch i ks).height = k.height + 1 := by
  rw [height]
  induction ks with
  | nil => exact absurd rfl hne
  | cons a ks ih =>
    by_cases hks : ks = []
    · subst hks
      exact ⟨a, List.mem_cons_self, by simp⟩
    · obtain ⟨k, hk, heq⟩ := ih hks
      rw [List.map_cons, List.foldr_cons]
      rcases Nat.le_total a.height k.height with hle | hle
      · exact ⟨k, List.mem_cons_of_mem _ hk, by omega⟩
      · exact ⟨a, List.mem_cons_self, by omega⟩

/-- A node of a node is a node. -/
theorem mem_nodes_trans {t u v : PageTree} (hv : v ∈ u.nodes) (hu : u ∈ t.nodes) :
    v ∈ t.nodes := by
  induction t with
  | leaf i cs =>
    rw [nodes_leaf, List.mem_singleton] at hu
    rwa [hu] at hv
  | branch i ks ih =>
    rw [nodes_branch, List.mem_cons, List.mem_flatMap] at hu
    rcases hu with rfl | ⟨k, hk, hu⟩
    · exact hv
    · rw [nodes_branch]
      exact List.mem_cons_of_mem _ (List.mem_flatMap.mpr ⟨k, hk, ih k hk hu⟩)

theorem mem_nodes_of_mem_kids {i : PageId} {ks : List PageTree} {k : PageTree} (hk : k ∈ ks) :
    k ∈ (branch i ks).nodes := by
  rw [nodes_branch]
  exact List.mem_cons_of_mem _ (List.mem_flatMap.mpr ⟨k, hk, k.self_mem_nodes⟩)

/-! ## Cells of nodes -/

theorem cells_sublist_of_mem_nodes {t u : PageTree} (hu : u ∈ t.nodes) :
    u.cells.Sublist t.cells := by
  induction t with
  | leaf i cs =>
    rw [nodes_leaf, List.mem_singleton] at hu
    rw [hu]
  | branch i ks ih =>
    rw [nodes_branch, List.mem_cons, List.mem_flatMap] at hu
    rcases hu with rfl | ⟨k, hk, hu⟩
    · exact List.Sublist.refl _
    · rw [cells_branch, List.flatMap_def]
      exact (ih k hk hu).trans (List.sublist_flatten_of_mem (List.mem_map_of_mem hk))

theorem keys_sublist_of_mem_nodes {t u : PageTree} (hu : u ∈ t.nodes) : u.keys.Sublist t.keys :=
  (cells_sublist_of_mem_nodes hu).map _

/-- Where keys are in order, a key has one cell. -/
theorem eq_of_key_eq {t : PageTree} {x y : Cell} (hs : t.keys.Pairwise (· < ·)) (hx : x ∈ t.cells)
    (hy : y ∈ t.cells) (h : x.key = y.key) : x = y :=
  List.inj_on_of_nodup_map (hs.imp fun hlt => UInt32.ne_of_lt hlt) hx hy h

/-! ## Pages of nodes -/

theorem pages_sublist_of_mem_nodes {t u : PageTree} (hu : u ∈ t.nodes) :
    u.pages.Sublist t.pages := by
  induction t with
  | leaf i cs =>
    rw [nodes_leaf, List.mem_singleton] at hu
    rw [hu]
  | branch i ks ih =>
    rw [nodes_branch, List.mem_cons, List.mem_flatMap] at hu
    rcases hu with rfl | ⟨k, hk, hu⟩
    · exact List.Sublist.refl _
    · rw [pages_branch, List.flatMap_def]
      exact ((ih k hk hu).trans (List.sublist_flatten_of_mem (List.mem_map_of_mem hk))).cons _

theorem map_id_sublist (ks : List PageTree) : (ks.map id).Sublist (ks.flatMap pages) := by
  induction ks with
  | nil => exact List.Sublist.refl _
  | cons k ks ih =>
    rw [List.map_cons, List.flatMap_cons, pages_eq_cons, List.cons_append]
    exact (ih.trans (List.sublist_append_right _ _)).cons_cons _

/-- Where no page occurs twice, no node has two subtrees on one page. -/
theorem nodup_kids {t u : PageTree} (h : t.pages.Nodup) (hu : u ∈ t.nodes) :
    (u.kids.map id).Nodup := by
  have hu := h.sublist (pages_sublist_of_mem_nodes hu)
  rw [pages_eq_cons, List.nodup_cons] at hu
  exact hu.2.sublist (map_id_sublist _)

/-! ## Greatest keys -/

/-- The last of increasing keys is the greatest one. -/
theorem isGreatest_iff {keys : List Key} {key : Key} (hs : keys.Pairwise (· < ·)) :
    IsGreatest {k | k ∈ keys} key ↔ keys.getLast? = some key := by
  rcases List.eq_nil_or_concat keys with rfl | ⟨init, last, rfl⟩
  · exact ⟨fun h => absurd h.1 List.not_mem_nil, fun h => by cases h⟩
  rw [List.concat_eq_append] at hs ⊢
  rw [List.getLast?_concat, Option.some.injEq]
  have hlt : ∀ k ∈ init, k < last := fun k hk =>
    (List.pairwise_append.mp hs).2.2 k hk last List.mem_cons_self
  have hlast : last ∈ init ++ [last] := List.mem_append_right _ List.mem_cons_self
  constructor
  · rintro ⟨hmem, hub⟩
    have hle : last ≤ key := hub hlast
    rcases List.mem_append.mp hmem with hk | hk
    · exact absurd (hlt key hk) (UInt32.not_lt.mpr hle)
    · exact (List.mem_singleton.mp hk).symm
  · rintro rfl
    refine ⟨hlast, fun k hk => ?_⟩
    rcases List.mem_append.mp hk with hk | hk
    · exact UInt32.le_of_lt (hlt k hk)
    · rw [List.mem_singleton.mp hk]
      exact UInt32.le_refl _

theorem le_greatest? {t : PageTree} {g key : Key} (hs : t.keys.Pairwise (· < ·))
    (hg : t.greatest? = some g) (hk : key ∈ t.keys) : key ≤ g :=
  ((isGreatest_iff hs).mpr hg).2 hk

theorem greatest?_mem {t : PageTree} {g : Key} (hg : t.greatest? = some g) : g ∈ t.keys :=
  List.mem_of_getLast? hg

theorem greatest?_isSome {t : PageTree} (h : t.cells ≠ []) : t.greatest?.isSome := by
  unfold greatest? keys
  rw [List.getLast?_isSome]
  simpa using h

/-- The greatest key of a branch is that of its last subtree. -/
theorem greatest?_branch (i : PageId) (ks : List PageTree) {k : PageTree} (h : k.cells ≠ []) :
    (branch i (ks ++ [k])).greatest? = k.greatest? := by
  have hk : k.keys ≠ [] := by
    unfold keys
    simpa using h
  unfold greatest?
  rw [keys_branch, List.flatMap_append, List.flatMap_singleton,
    List.getLast?_append_of_ne_nil _ hk]

end PageTree

/-! ## How full nodes are -/

/-- Bounds for the cells of a leaf and the children of a branch. -/
structure Fill where
  leafLo : Nat
  leafHi : Nat
  kidsLo : Nat
  kidsHi : Nat
  one_le_leafLo : 1 ≤ leafLo
  two_le_kidsLo : 2 ≤ kidsLo

/-- The bounds that a configuration asks for. -/
def Config.fill (c : Config) : Fill where
  leafLo := c.leafMin
  leafHi := c.leafMax
  kidsLo := c.internalMin + 1
  kidsHi := c.internalMax + 1
  one_le_leafLo := by
    have : 2 ≤ c.leafMax := c.two_le_leafMax
    unfold Config.leafMin
    omega
  two_le_kidsLo := by
    have : 2 ≤ c.internalMax := c.two_le_internalMax
    unfold Config.internalMin
    omega

/-- Children are one more than keys. -/
theorem Config.kids_fit_iff (c : Config) (n : Nat) (top : Bool) :
    ((if top then 2 else c.fill.kidsLo) ≤ n + 1 ∧ n + 1 ≤ c.fill.kidsHi) ↔
      ((if top then 1 else c.internalMin) ≤ n ∧ n ≤ c.internalMax) := by
  simp only [Config.fill]
  cases top <;> simp only [Bool.false_eq_true, if_true, if_false] <;> omega

/-- The bounds that hold under every configuration: no node is empty, and no page overflows. -/
def Fill.loose : Fill where
  leafLo := 1
  leafHi := leafCapacity
  kidsLo := 2
  kidsHi := internalCapacity + 1
  one_le_leafLo := Nat.le_refl _
  two_le_kidsLo := Nat.le_refl _

namespace PageTree

/-- The node at the top is as full as the bounds ask. The root of the whole tree (`top`) may be a
leaf with any number of cells or a branch with two subtrees. -/
def Fits (f : Fill) (top : Bool) : PageTree → Prop
  | leaf _ cells => (top = false → f.leafLo ≤ cells.length) ∧ cells.length ≤ f.leafHi
  | branch _ kids =>
    (if top then 2 else f.kidsLo) ≤ kids.length ∧ kids.length ≤ f.kidsHi

/-- All nodes are as full as the bounds ask. -/
def Within (f : Fill) (top : Bool) : PageTree → Prop
  | leaf id cells => (leaf id cells).Fits f top
  | branch id kids => (branch id kids).Fits f top ∧ ∀ k ∈ kids, k.Within f false

variable {f : Fill} {top : Bool} {t : PageTree}

theorem within_leaf {i : PageId} {cs : List Cell} :
    (leaf i cs).Within f top ↔ (top = false → f.leafLo ≤ cs.length) ∧ cs.length ≤ f.leafHi := by
  rw [Within, Fits]

theorem within_branch {i : PageId} {ks : List PageTree} :
    (branch i ks).Within f top ↔
      ((if top then 2 else f.kidsLo) ≤ ks.length ∧ ks.length ≤ f.kidsHi) ∧
        ∀ k ∈ ks, k.Within f false := by
  rw [Within, Fits]

theorem two_le_kids {n : Nat} (h : (if top then 2 else f.kidsLo) ≤ n) : 2 ≤ n := by
  have := f.two_le_kidsLo
  split at h <;> omega

theorem Within.fits (h : t.Within f top) : t.Fits f top := by
  cases t with
  | leaf i cs =>
    rw [Within] at h
    exact h
  | branch i ks =>
    rw [Within] at h
    exact h.1

/-- A subtree that is full enough is full enough as a whole tree. -/
theorem Within.relax (h : t.Within f false) : t.Within f top := by
  cases t with
  | leaf i cs =>
    rw [within_leaf] at h ⊢
    exact ⟨fun _ => h.1 rfl, h.2⟩
  | branch i ks =>
    rw [within_branch] at h ⊢
    refine ⟨⟨?_, h.1.2⟩, h.2⟩
    split
    · exact two_le_kids h.1.1
    · exact h.1.1

/-- What a configuration asks for is enough under every configuration. -/
theorem Within.loosen {c : Config} (h : t.Within c.fill top) : t.Within .loose top := by
  have hlo : Fill.loose.leafLo ≤ c.fill.leafLo := c.fill.one_le_leafLo
  have hhi : c.fill.leafHi ≤ Fill.loose.leafHi := c.leafMax_le
  have hkids : c.fill.kidsHi ≤ Fill.loose.kidsHi := Nat.succ_le_succ c.internalMax_le
  induction t generalizing top with
  | leaf i cs =>
    rw [within_leaf] at h ⊢
    exact ⟨fun htop => Nat.le_trans hlo (h.1 htop), Nat.le_trans h.2 hhi⟩
  | branch i ks ih =>
    rw [within_branch] at h ⊢
    refine ⟨⟨?_, Nat.le_trans h.1.2 hkids⟩, fun k hk => ih k hk (h.2 k hk)⟩
    have htwo : 2 ≤ ks.length := two_le_kids h.1.1
    rwa [show Fill.loose.kidsLo = 2 from rfl, ite_self]

theorem Within.moveTo (h : t.Within f top) (new : PageId) : (t.moveTo new).Within f top := by
  cases t with
  | leaf i cs =>
    rw [PageTree.moveTo, within_leaf]
    rwa [within_leaf] at h
  | branch i ks =>
    rw [PageTree.moveTo, within_branch]
    rwa [within_branch] at h

/-- Every node below the top is as full as the bounds ask. -/
theorem Within.of_mem_nodes {u : PageTree} (h : t.Within f top) (hu : u ∈ t.nodes) :
    u = t ∨ u.Within f false := by
  induction t generalizing top with
  | leaf i cs => exact .inl (by simpa using hu)
  | branch i ks ih =>
    rw [nodes_branch, List.mem_cons, List.mem_flatMap] at hu
    rw [within_branch] at h
    rcases hu with rfl | ⟨k, hk, hu⟩
    · exact .inl rfl
    · rcases ih k hk (h.2 k hk) hu with rfl | hu
      · exact .inr (h.2 u hk)
      · exact .inr hu

/-- Trees within bounds have cells, a single empty root leaf apart. -/
theorem cells_ne_nil (h : t.Within f top) (hne : ∀ i, t ≠ leaf i []) : t.cells ≠ [] := by
  induction t generalizing top with
  | leaf i cs =>
    rw [cells_leaf]
    rintro rfl
    exact hne i rfl
  | branch i ks ih =>
    rw [within_branch] at h
    have hlen := two_le_kids h.1.1
    obtain ⟨k, hk⟩ := List.exists_mem_of_length_pos (l := ks) (by omega)
    intro hnil
    rw [cells_branch, List.flatMap_eq_nil_iff] at hnil
    refine ih k hk (h.2 k hk) ?_ (hnil k hk)
    rintro j rfl
    have hlo := (within_leaf.mp (h.2 _ hk)).1 rfl
    have := f.one_le_leafLo
    rw [List.length_nil] at hlo
    omega

theorem Within.cells_ne_nil (h : t.Within f false) : t.cells ≠ [] := by
  refine PageTree.cells_ne_nil h ?_
  rintro i rfl
  have hlo := (within_leaf.mp h).1 rfl
  have := f.one_le_leafLo
  rw [List.length_nil] at hlo
  omega

end PageTree

end PagedTable
