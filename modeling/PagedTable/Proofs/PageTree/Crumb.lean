import PagedTable.Proofs.PageTree.Held

/-!
# Ways down a tree

A `Crumb` is one step of a way down: the branch it leaves, and the subtrees on both sides of the one
it enters. A list of crumbs, the last step first, is a whole tree with a subtree taken out, and
`PageTree.plug` puts one in.

* `PageTree.exists_plug`: there is a way down to every subtree.
* `cells_plug`, `pages_plug`, `within_plug`: what a tree is made of, around the subtree and in it.
* `Held.of_plug`: the subtree is held below the last step's branch.
* `Held.replace`: another subtree may stand there if it is held and ends with the same key, or if no
  separator stands for it.
-/

namespace PagedTable

/-- A step down from branch `id`. -/
structure Crumb where
  id : PageId
  before : List PageTree
  after : List PageTree

namespace Crumb

/-- The subtrees beside the one that is entered. -/
def beside (c : Crumb) : List PageTree := c.before ++ c.after

/-- The branch with these subtrees where the way went on. -/
def around (c : Crumb) (inner : List PageTree) : PageTree :=
  .branch c.id (c.before ++ inner ++ c.after)

/-- The page above a subtree that crumbs lead to. -/
def up (cs : List Crumb) : Option PageId := cs.head?.map Crumb.id

/-- The cells left of the subtree that crumbs lead to. -/
def leftCells : List Crumb → List Cell
  | [] => []
  | c :: cs => leftCells cs ++ c.before.flatMap PageTree.cells

/-- The cells right of the subtree that crumbs lead to. -/
def rightCells : List Crumb → List Cell
  | [] => []
  | c :: cs => c.after.flatMap PageTree.cells ++ rightCells cs

/-- The pages of the tree that are not in the subtree. -/
def pages : List Crumb → List PageId
  | [] => []
  | c :: cs => c.id :: c.beside.flatMap PageTree.pages ++ pages cs

/-- Every step went to the last subtree, for which no separator stands. -/
def Rightmost (cs : List Crumb) : Prop := ∀ c ∈ cs, c.after = []

/-- All nodes outside the subtree are as full as the bounds ask. -/
def Within (f : Fill) : List Crumb → Prop
  | [] => True
  | c :: cs =>
    (((if cs.isEmpty then 2 else f.kidsLo) ≤ c.beside.length + 1 ∧ c.beside.length + 1 ≤ f.kidsHi) ∧
      ∀ k ∈ c.beside, k.Within f false) ∧ Within f cs

variable {c : Crumb} {cs : List Crumb} {f : Fill}

@[simp] theorem up_nil : up [] = none := rfl

@[simp] theorem up_cons : up (c :: cs) = some c.id := rfl

@[simp] theorem leftCells_nil : leftCells [] = [] := rfl

@[simp] theorem leftCells_cons :
    leftCells (c :: cs) = leftCells cs ++ c.before.flatMap PageTree.cells := rfl

@[simp] theorem rightCells_nil : rightCells [] = [] := rfl

@[simp] theorem rightCells_cons :
    rightCells (c :: cs) = c.after.flatMap PageTree.cells ++ rightCells cs := rfl

@[simp] theorem pages_nil : pages [] = [] := rfl

@[simp] theorem pages_cons :
    pages (c :: cs) = c.id :: c.beside.flatMap PageTree.pages ++ pages cs := rfl

/-- The branches that a way down leaves are pages outside the subtree. -/
theorem map_id_sublist (cs : List Crumb) : (cs.map Crumb.id).Sublist (pages cs) := by
  induction cs with
  | nil => exact .slnil
  | cons c cs ih => exact (ih.trans (List.sublist_append_right _ _)).cons_cons _

theorem rightmost_nil : Rightmost [] := fun _ h => by cases h

theorem rightmost_cons : Rightmost (c :: cs) ↔ c.after = [] ∧ Rightmost cs :=
  List.forall_mem_cons

/-- Right of a subtree to which every step went last there is nothing. -/
theorem Rightmost.rightCells (h : Rightmost cs) : rightCells cs = [] := by
  induction cs with
  | nil => rfl
  | cons c cs ih =>
    obtain ⟨hc, hcs⟩ := rightmost_cons.mp h
    rw [rightCells_cons, hc, ih hcs]
    rfl

@[simp] theorem id_around (c : Crumb) (inner : List PageTree) : (c.around inner).id = c.id := rfl

theorem length_around (c : Crumb) (inner : List PageTree) :
    (c.before ++ inner ++ c.after).length = inner.length + c.beside.length := by
  rw [beside, List.length_append, List.length_append, List.length_append]
  omega

theorem cells_around (c : Crumb) (inner : List PageTree) :
    (c.around inner).cells =
      c.before.flatMap PageTree.cells ++ inner.flatMap PageTree.cells ++
        c.after.flatMap PageTree.cells := by
  rw [around, PageTree.cells_branch, List.flatMap_append, List.flatMap_append]

/-- The branch and what is outside it are made of the same pages as what is around the subtrees in
it, and those subtrees. -/
theorem pages_around (c : Crumb) (cs : List Crumb) (inner : List PageTree) :
    ((c.around inner).pages ++ pages cs).Perm
      (pages (c :: cs) ++ inner.flatMap PageTree.pages) := by
  refine List.perm_iff_count.mpr fun a => ?_
  rw [around, PageTree.pages_branch, pages_cons, beside]
  simp only [List.flatMap_append, List.count_append, List.count_cons]
  omega

end Crumb

open Crumb

namespace PageTree

/-- The whole tree around a subtree. -/
def plug : List Crumb → PageTree → PageTree
  | [], t => t
  | c :: cs, t => plug cs (c.around [t])

variable {c : Crumb} {cs : List Crumb} {f : Fill} {t : PageTree}

@[simp] theorem plug_nil : plug [] t = t := rfl

@[simp] theorem plug_cons : plug (c :: cs) t = plug cs (c.around [t]) := rfl

theorem cells_plug (cs : List Crumb) (t : PageTree) :
    (plug cs t).cells = leftCells cs ++ t.cells ++ rightCells cs := by
  induction cs generalizing t with
  | nil => simp
  | cons c cs ih =>
    rw [plug_cons, ih, cells_around, List.flatMap_singleton, leftCells_cons, rightCells_cons]
    simp only [List.append_assoc]

theorem cells_subset_plug (cs : List Crumb) (t : PageTree) : t.cells ⊆ (plug cs t).cells := by
  rw [cells_plug, List.append_assoc]
  exact fun x hx => List.mem_append_right _ (List.mem_append_left _ hx)

theorem pages_plug (cs : List Crumb) (t : PageTree) :
    (plug cs t).pages.Perm (t.pages ++ Crumb.pages cs) := by
  induction cs generalizing t with
  | nil => simp
  | cons c cs ih =>
    have haround := Crumb.pages_around c cs [t]
    rw [List.flatMap_singleton] at haround
    exact ((ih _).trans haround).trans List.perm_append_comm

/-- The pages on the way up from a subtree are pages of the tree, and each of them comes once. -/
theorem pages_up {u : PageTree} (h : t.pages.Nodup) (ht : plug cs u = t) :
    (u.id :: cs.map Crumb.id).Nodup ∧ u.id :: cs.map Crumb.id ⊆ t.pages := by
  have hperm := pages_plug cs u
  rw [ht] at hperm
  have hsub : (u.id :: cs.map Crumb.id).Sublist (u.pages ++ Crumb.pages cs) :=
    (List.singleton_sublist.mpr u.id_mem_pages).append (Crumb.map_id_sublist cs)
  exact ⟨(hperm.nodup_iff.mp h).sublist hsub, fun _ hid => hperm.mem_iff.mpr (hsub.subset hid)⟩

/-- The top of a whole tree is outside the subtree, unless the subtree is all of it. -/
theorem id_plug_mem : (plug (c :: cs) t).id ∈ Crumb.pages (c :: cs) := by
  induction cs generalizing c t with
  | nil => simp
  | cons d cs ih =>
    rw [plug_cons, pages_cons]
    exact List.mem_append_right _ (ih (c := d))

/-- Where no page occurs twice, a subtree does not stand on the top page. -/
theorem id_ne_plug (h : (plug (c :: cs) t).pages.Nodup) : t.id ≠ (plug (c :: cs) t).id :=
  (List.nodup_append.mp ((pages_plug _ t).nodup_iff.mp h)).2.2 _ t.id_mem_pages _ id_plug_mem

theorem id_plug {t' : PageTree} (h : t'.id = t.id) : (plug cs t').id = (plug cs t).id := by
  induction cs generalizing t t' with
  | nil => exact h
  | cons c cs ih => exact ih rfl

theorem height_plug (cs : List Crumb) (t : PageTree) :
    cs.length + t.height ≤ (plug cs t).height := by
  induction cs generalizing t with
  | nil => simp
  | cons c cs ih =>
    have hmem : t ∈ c.before ++ [t] ++ c.after := by simp
    have hlt := height_lt_of_mem_kids (i := c.id) hmem
    have := ih (c.around [t])
    rw [List.length_cons, plug_cons]
    unfold around at this ⊢
    omega

theorem mem_nodes_plug (cs : List Crumb) (t : PageTree) : t ∈ (plug cs t).nodes := by
  induction cs generalizing t with
  | nil => exact t.self_mem_nodes
  | cons c cs ih =>
    refine mem_nodes_trans ?_ (ih (c.around [t]))
    exact mem_nodes_of_mem_kids (by simp)

/-- One more step at the top. -/
theorem plug_concat (cs : List Crumb) (c : Crumb) (t : PageTree) :
    plug (cs ++ [c]) t = c.around [plug cs t] := by
  induction cs generalizing t with
  | nil => rfl
  | cons d cs ih => exact ih _

/-- In a tree that is a leaf there is no way to go. -/
theorem eq_nil_of_plug_eq_leaf {i : PageId} {cells : List Cell} (h : plug cs t = leaf i cells) :
    cs = [] := by
  have hle := height_plug cs t
  have hpos := t.height_pos
  rw [h, height_leaf] at hle
  exact List.length_eq_zero_iff.mp (by omega)

/-- There is a way down to every subtree. -/
theorem exists_plug {u : PageTree} (hu : u ∈ t.nodes) : ∃ cs, plug cs u = t := by
  induction t with
  | leaf i cells =>
    rw [nodes_leaf, List.mem_singleton] at hu
    exact ⟨[], hu⟩
  | branch i kids ih =>
    rw [nodes_branch, List.mem_cons, List.mem_flatMap] at hu
    rcases hu with rfl | ⟨k, hk, hu⟩
    · exact ⟨[], rfl⟩
    · obtain ⟨cs, rfl⟩ := ih k hk hu
      obtain ⟨before, after, rfl⟩ := List.mem_iff_append.mp hk
      refine ⟨cs ++ [⟨i, before, after⟩], ?_⟩
      rw [plug_concat, around, List.append_assoc, List.singleton_append]

/-- Where no page occurs twice, a subtree does not stand on the page of one before it. -/
theorem id_notMem_before (h : (plug (c :: cs) t).pages.Nodup) : t.id ∉ c.before.map id := by
  have hnd := nodup_kids h (mem_nodes_plug cs (c.around [t]))
  rw [around, kids, List.map_append, List.map_append, List.append_assoc] at hnd
  exact fun hmem => (List.nodup_append.mp hnd).2.2 _ hmem _ (by simp) rfl

theorem within_plug : (plug cs t).Within f true ↔ t.Within f cs.isEmpty ∧ Crumb.Within f cs := by
  induction cs generalizing t with
  | nil => simp [Crumb.Within]
  | cons c cs ih =>
    rw [plug_cons, ih, around, within_branch, Crumb.Within, beside]
    simp only [List.length_append, List.length_singleton, List.forall_mem_append,
      List.forall_mem_singleton, List.isEmpty_cons]
    rw [Nat.add_right_comm]
    tauto

/-- A branch ends with the same key as before if the subtree in it does. -/
theorem greatest?_around {c : Crumb} {inner inner' : List PageTree}
    (h : (inner'.flatMap keys).getLast? = (inner.flatMap keys).getLast?) :
    (c.around inner').greatest? = (c.around inner).greatest? := by
  rw [greatest?, greatest?, around, around, keys_branch, keys_branch]
  simp only [List.flatMap_append, List.getLast?_append, h]

end PageTree

open PageTree (plug)

/-- No way down is longer than a walk may be. -/
theorem Unfolds.length_crumbs_lt {s : Pager} {cs : List Crumb} {t u : PageTree}
    (h : Unfolds s.view t) (ht : plug cs u = t) : cs.length < walkLength := by
  have hle := PageTree.height_plug cs u
  rw [ht] at hle
  have hpos := u.height_pos
  have hmax := h.height_le
  exact Nat.lt_succ_of_le (by omega)

namespace Held

variable {m m' : View} {root : PageId} {cs : List Crumb} {c : Crumb} {t t' : PageTree}

/-- A subtree is held below the branch of the last step that leads to it. -/
theorem of_plug (h : Held m root none (plug cs t)) : Held m root (Crumb.up cs) t := by
  induction cs generalizing t with
  | nil => exact h
  | cons c cs ih =>
    cases ih h with
    | branch _ _ _ _ hk => exact hk t (by simp)

/-- The page of a leaf. -/
theorem leaf_of_plug {leaf : PageId} {cells : List Cell}
    (h : Held m root none (plug cs (.leaf leaf cells))) :
    ∃ p, m.node? leaf = some (.leaf, p) ∧ p.Placed root (Crumb.up cs) leaf ∧ p.cells = cells ∧
      p.count = cells.length := by
  cases of_plug h with
  | leaf hn hp hc => exact ⟨_, hn, hp, hc, by rw [← hc, Page.length_cells]⟩

/-- The way down to a leaf. -/
theorem exists_plug_leaf {id : PageId} {p : Page} (h : Held m root none t) (hid : id ∈ t.pages)
    (hn : m.node? id = some (.leaf, p)) : ∃ cs, plug cs (.leaf id p.cells) = t := by
  obtain ⟨u, hu, rfl⟩ := List.mem_map.mp hid
  cases h.unfolds.of_mem_nodes hu with
  | leaf hn' hc =>
    rw [PageTree.id_leaf, hn'] at hn
    cases hn
    rw [PageTree.id_leaf, hc]
    exact PageTree.exists_plug hu
  | branch hn' =>
    rw [PageTree.id_branch, hn'] at hn
    cases hn

/-- The page of the branch of the last step. -/
theorem node_of_plug (h : Held m root none (plug (c :: cs) t)) :
    ∃ p, m.node? c.id = some (.internal, p) ∧
      p.children = c.before.map PageTree.id ++ t.id :: c.after.map PageTree.id ∧
      p.count = c.beside.length := by
  have hbranch : Held m root (Crumb.up cs) (c.around [t]) := of_plug h
  cases hbranch with
  | @branch _ _ _ p hn _ hc =>
    have hlen := Page.count_of_children hc
    rw [length_around, List.length_singleton, Nat.add_comm] at hlen
    exact ⟨p, hn, by simp [hc], Nat.add_left_cancel hlen⟩

/-- Every step leaves a branch. -/
theorem node_of_mem_crumbs (h : Held m root none (plug cs t)) (hc : c ∈ cs) :
    ∃ p, m.node? c.id = some (.internal, p) := by
  induction cs generalizing t with
  | nil => cases hc
  | cons d cs ih =>
    rcases List.mem_cons.mp hc with rfl | hc
    · obtain ⟨p, hn, -⟩ := h.node_of_plug
      exact ⟨p, hn⟩
    · exact ih (t := d.around [t]) h hc

/-- Separators stand for all subtrees but the last. -/
theorem separators_around {after : List PageTree} (before : List PageTree)
    (h : t'.greatest? = t.greatest? ∨ after = []) :
    (before ++ [t'] ++ after).dropLast.map PageTree.greatest? =
      (before ++ [t] ++ after).dropLast.map PageTree.greatest? := by
  by_cases hafter : after = []
  · subst hafter
    simp only [List.append_nil, List.dropLast_concat]
  · have hg := h.resolve_right hafter
    rw [List.dropLast_append_of_ne_nil hafter, List.dropLast_append_of_ne_nil hafter]
    simp only [List.map_append, List.map_singleton, hg]

/-- **Another subtree in the place of one.** The pages of the tree outside it stay as they are. -/
theorem replace (h : Held m root none (plug cs t)) (hid : t'.id = t.id)
    (hg : t'.greatest? = t.greatest? ∨ Rightmost cs) (hm : ∀ id ∈ Crumb.pages cs, m' id = m id)
    (ht : Held m' root (Crumb.up cs) t') : Held m' root none (plug cs t') := by
  induction cs generalizing t t' with
  | nil => exact ht
  | cons c cs ih =>
    rw [pages_cons, List.cons_append, List.forall_mem_cons, List.forall_mem_append] at hm
    obtain ⟨hmc, hmbeside, hmcs⟩ := hm
    have hg' : t'.greatest? = t.greatest? ∨ c.after = [] := hg.imp_right fun h =>
      (rightmost_cons.mp h).1
    refine ih (t := c.around [t]) h rfl ?_ hmcs ?_
    · refine hg.imp (fun heq => PageTree.greatest?_around ?_) fun h => (rightmost_cons.mp h).2
      rw [List.flatMap_singleton, List.flatMap_singleton]
      exact heq
    · have hbranch : Held m root (Crumb.up cs) (c.around [t]) := of_plug h
      cases hbranch with
      | branch hn hp hc hs hk =>
        refine .branch (by rw [View.node?_congr hmc, hn]) hp ?_ ?_ ?_
        · rw [hc]
          simp only [List.map_append, List.map_singleton, hid]
        · rw [hs, separators_around _ hg']
        · have hbeside : ∀ k ∈ c.beside, Held m' root (some c.id) k := fun k hmem =>
            (hk k (by grind [Crumb.beside])).congr fun id hid =>
              hmbeside id (List.mem_flatMap.mpr ⟨k, hmem, hid⟩)
          intro k hmem
          rcases List.mem_append.mp hmem with hmem | hmem
          · rcases List.mem_append.mp hmem with hmem | hmem
            · exact hbeside k (List.mem_append_left _ hmem)
            · rwa [List.mem_singleton.mp hmem]
          · exact hbeside k (List.mem_append_right _ hmem)

end Held

end PagedTable
