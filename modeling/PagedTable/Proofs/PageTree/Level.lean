import PagedTable.Proofs.PageTree.Reach
import PagedTable.Proofs.PageTree.Spot

/-!
# How deep leaves are

A tree is level if all its leaves stand as many steps below the top. A new cell keeps it level: the
half that a split leaves over is put beside the other one, so at the same depth, and only a split of
the root moves all leaves down, by one step.

* `PageTree.Leveled`: all leaves stand `n` steps below the top.
* `PageTree.leveled_plug`, `PageTree.leveled_graft`: a tree around a subtree, and one around two
  halves.
* `Spot.leveled_grown`: the tree with a new cell. It is a step deeper exactly if every node on the
  way to the spot is full (`Spot.Rises`).
* `View.LeavesAt`: how deep leaves are, said page by page. `View.SplitsAt`: what a split of the root
  page leaves.
* `Rooted.leavesAt`, `Rooted.splitsAt_iff`: from the tree to its pages.
-/

namespace PagedTable

open Crumb
open PageTree (plug graft)

variable {m m' : View} {root : PageId} {f : Fill} {T t l r : PageTree} {c : Crumb}
  {cs : List Crumb} {cfg : Config} {fresh n d : Nat} {key : Key} {x : Cell}

/-- All leaves stand `n` steps below the top. -/
inductive PageTree.Leveled : Nat → PageTree → Prop where
  | leaf {id : PageId} {cells : List Cell} : Leveled 0 (.leaf id cells)
  | branch {n : Nat} {id : PageId} {kids : List PageTree} (kids_leveled : ∀ k ∈ kids, Leveled n k) :
    Leveled (n + 1) (.branch id kids)

/-- With a subtree whose leaves stand `n` steps below its top, all leaves are equally deep. -/
def Crumb.Leveled : Nat → List Crumb → Prop
  | _, [] => True
  | n, c :: cs => (∀ k ∈ c.beside, k.Leveled n) ∧ Leveled (n + 1) cs

/-- Every branch on the way has as many children as it may have. -/
def Crumb.Full (cfg : Config) (cs : List Crumb) : Prop :=
  ∀ c ∈ cs, cfg.internalMax ≤ c.beside.length

theorem Crumb.full_cons :
    Crumb.Full cfg (c :: cs) ↔ cfg.internalMax ≤ c.beside.length ∧ Crumb.Full cfg cs :=
  List.forall_mem_cons

namespace PageTree

/-! ## Levels -/

theorem leveled_branch {i : PageId} {kids : List PageTree} :
    (branch i kids).Leveled (n + 1) ↔ ∀ k ∈ kids, k.Leveled n :=
  ⟨fun h => by cases h with | branch hk => exact hk, .branch⟩

theorem Leveled.moveTo (h : t.Leveled n) (new : PageId) : (t.moveTo new).Leveled n := by
  cases h with
  | leaf => exact .leaf
  | branch hk => exact .branch hk

/-- A level tree that is not deep is a leaf. -/
theorem Leveled.kids_eq_nil_iff (h : t.Leveled n) (hw : t.Within f true) :
    t.kids = [] ↔ n = 0 := by
  cases h with
  | leaf => exact iff_of_true rfl rfl
  | @branch n id kids hk =>
    have htwo := two_le_kids (within_branch.mp hw).1.1
    refine iff_of_false (fun hnil => ?_) (Nat.succ_ne_zero n)
    rw [show kids = [] from hnil] at htwo
    exact absurd htwo (by decide)

theorem leveled_around {inner : List PageTree} :
    (c.around inner).Leveled (n + 1) ↔
      (∀ k ∈ inner, k.Leveled n) ∧ ∀ k ∈ c.beside, k.Leveled n := by
  rw [around, leveled_branch, beside]
  simp only [List.forall_mem_append]
  tauto

/-- **A tree around a subtree.** -/
theorem leveled_plug :
    (plug cs t).Leveled d ↔ ∃ n, d = n + cs.length ∧ t.Leveled n ∧ Crumb.Leveled n cs := by
  induction cs generalizing t with
  | nil => simp [Crumb.Leveled]
  | cons c cs ih =>
    rw [plug_cons, ih, List.length_cons]
    constructor
    · rintro ⟨k, rfl, ht, hcs⟩
      cases k with
      | zero => cases ht
      | succ n =>
        obtain ⟨ht, hbeside⟩ := leveled_around.mp ht
        exact ⟨n, by omega, ht t List.mem_cons_self, hbeside, hcs⟩
    · rintro ⟨n, rfl, ht, hbeside, hcs⟩
      refine ⟨n + 1, by omega, leveled_around.mpr ⟨?_, hbeside⟩, hcs⟩
      exact List.forall_mem_singleton.mpr ht

theorem leveled_kids (hl : l.Leveled n) (hr : r.Leveled n) (hc : ∀ k ∈ c.beside, k.Leveled n) :
    ∀ k ∈ c.before ++ [l, r] ++ c.after, k.Leveled n := by
  have hinner : ∀ k ∈ [l, r], k.Leveled n := List.forall_mem_cons.mpr
    ⟨hl, List.forall_mem_singleton.mpr hr⟩
  exact leveled_branch.mp (leveled_around.mpr ⟨hinner, hc⟩)

/-- **A tree around two halves** is a step deeper if every branch on the way was full. -/
theorem leveled_graft_of_full (hl : l.Leveled n) (hr : r.Leveled n) (hcs : Crumb.Leveled n cs)
    (hfull : Crumb.Full cfg cs) : (graft cfg fresh cs l r).Leveled (n + cs.length + 1) := by
  induction cs generalizing n fresh l r with
  | nil =>
    refine .branch (List.forall_mem_cons.mpr ⟨hl.moveTo _, ?_⟩)
    exact List.forall_mem_singleton.mpr hr
  | cons c cs ih =>
    obtain ⟨hc, hfull⟩ := full_cons.mp hfull
    have hkids := leveled_kids hl hr hcs.1
    rw [graft, if_neg (Nat.not_lt.mpr hc), List.length_cons, ← Nat.add_right_comm n 1]
    exact ih (.branch fun k hk => hkids k (List.mem_of_mem_take hk))
      (.branch fun k hk => hkids k (List.mem_of_mem_drop hk)) hcs.2 hfull

/-- Otherwise it is as deep as before. -/
theorem leveled_graft (hl : l.Leveled n) (hr : r.Leveled n) (hcs : Crumb.Leveled n cs)
    (hroom : ¬ Crumb.Full cfg cs) : (graft cfg fresh cs l r).Leveled (n + cs.length) := by
  induction cs generalizing n fresh l r with
  | nil => exact absurd (fun c hc => absurd hc List.not_mem_nil) hroom
  | cons c cs ih =>
    have hkids := leveled_kids hl hr hcs.1
    rw [graft, List.length_cons]
    split
    · exact leveled_plug.mpr ⟨n + 1, by omega, .branch hkids, hcs.2⟩
    · rename_i hc
      rw [full_cons, not_and] at hroom
      rw [← Nat.add_assoc, Nat.add_right_comm]
      exact ih (.branch fun k hk => hkids k (List.mem_of_mem_take hk))
        (.branch fun k hk => hkids k (List.mem_of_mem_drop hk)) hcs.2
        (hroom (Nat.le_of_not_lt hc))

/-! ## The children of the top node -/

/-- The top node keeps its children if the subtree keeps its own. -/
theorem kidIds_plug {t' : PageTree} (hid : t'.id = t.id)
    (h : t.kids.map id ⊆ t'.kids.map id) :
    (plug cs t).kids.map id ⊆ (plug cs t').kids.map id := by
  induction cs generalizing t t' with
  | nil => exact h
  | cons c cs ih =>
    refine ih rfl ?_
    rw [around, around, kids, kids]
    simp only [List.map_append, List.map_singleton, hid]
    exact List.Subset.refl _

/-- A top node that is not split keeps its children. -/
theorem kidIds_graft (hid : l.id = t.id) (hroom : ¬ Crumb.Full cfg cs) :
    (plug cs t).kids.map id ⊆ (graft cfg fresh cs l r).kids.map id := by
  induction cs generalizing fresh t l r with
  | nil => exact absurd (fun c hc => absurd hc List.not_mem_nil) hroom
  | cons c cs ih =>
    rw [graft, plug_cons]
    split
    · refine kidIds_plug rfl ?_
      rw [around, around, kids, kids]
      simp only [List.map_append, List.map_cons, List.map_nil, hid]
      grind
    · rename_i hc
      rw [full_cons, not_and] at hroom
      exact ih (t := c.around [t]) rfl (hroom (Nat.le_of_not_lt hc))

/-- A top node that is split gets its two halves as children, on new pages. -/
theorem graft_of_full (hfull : Crumb.Full cfg cs) :
    ∃ i left right, graft cfg fresh cs l r = branch i [left, right] ∧
      ∀ k ∈ [left, right],
        k.id ∈ r.id :: (List.range' fresh (risers cfg cs)).map PageId.ofIndex := by
  induction cs generalizing fresh l r with
  | nil =>
    refine ⟨_, _, _, rfl, ?_⟩
    rw [risers, List.range'_one]
    simp
  | cons c cs ih =>
    obtain ⟨hc, hfull⟩ := full_cons.mp hfull
    rw [graft, risers, if_neg (Nat.not_lt.mpr hc), if_neg (Nat.not_lt.mpr hc), List.range'_succ,
      List.map_cons]
    obtain ⟨i, left, right, heq, hids⟩ := ih hfull
    exact ⟨i, left, right, heq, fun k hk => List.mem_cons_of_mem _ (hids k hk)⟩

namespace Spot

/-! ## The tree with a new cell -/

/-- Every node on the way to the spot is full, so a new cell there splits the root. -/
def Rises (cfg : Config) (sp : t.Spot key) : Prop :=
  cfg.leafMax ≤ sp.cells.length ∧ Crumb.Full cfg sp.crumbs

/-- The leaf of the spot, in a level tree. -/
theorem leveled_crumbs (sp : t.Spot key) (h : t.Leveled d) :
    d = sp.crumbs.length ∧ Crumb.Leveled 0 sp.crumbs := by
  rw [← sp.plug_eq] at h
  obtain ⟨n, rfl, hleaf, hcs⟩ := leveled_plug.mp h
  cases hleaf with
  | leaf => exact ⟨Nat.zero_add _, hcs⟩

/-- **A new cell** that splits the root moves all leaves one step down. -/
theorem leveled_grown_of_rises (sp : t.Spot key) (fresh : Nat) (x : Cell) (h : t.Leveled d)
    (hrises : sp.Rises cfg) :
    (sp.grown cfg fresh x).Leveled (d + 1) := by
  obtain ⟨rfl, hcs⟩ := sp.leveled_crumbs h
  rw [sp.grown_of_full hrises.1, ← Nat.zero_add sp.crumbs.length]
  exact leveled_graft_of_full .leaf .leaf hcs hrises.2

/-- One that does not leaves them as deep as they are. -/
theorem leveled_grown (sp : t.Spot key) (fresh : Nat) (x : Cell) (h : t.Leveled d)
    (hroom : ¬ sp.Rises cfg) :
    (sp.grown cfg fresh x).Leveled d := by
  obtain ⟨rfl, hcs⟩ := sp.leveled_crumbs h
  by_cases hleaf : sp.cells.length < cfg.leafMax
  · rw [sp.grown_of_room hleaf]
    exact leveled_plug.mpr ⟨0, (Nat.zero_add _).symm, .leaf, hcs⟩
  · have hfull := Nat.le_of_not_lt hleaf
    rw [sp.grown_of_full hfull, ← Nat.zero_add sp.crumbs.length]
    exact leveled_graft .leaf .leaf hcs fun h => hroom ⟨hfull, h⟩

/-- A root that is not split keeps its children. -/
theorem kidIds_grown (sp : t.Spot key) (fresh : Nat) (x : Cell) (hroom : ¬ sp.Rises cfg) :
    t.kids.map PageTree.id ⊆ (sp.grown cfg fresh x).kids.map PageTree.id := by
  conv_lhs => rw [← sp.plug_eq]
  by_cases hleaf : sp.cells.length < cfg.leafMax
  · rw [sp.grown_of_room hleaf]
    exact kidIds_plug rfl (List.Subset.refl _)
  · have hfull := Nat.le_of_not_lt hleaf
    rw [sp.grown_of_full hfull]
    exact kidIds_graft rfl fun h => hroom ⟨hfull, h⟩

/-- A root that is split has its two halves as children, on new pages. -/
theorem grown_of_rises (sp : t.Spot key) (fresh : Nat) (x : Cell) (hrises : sp.Rises cfg) :
    ∃ i left right, sp.grown cfg fresh x = .branch i [left, right] ∧
      ∀ k ∈ [left, right], k.id ∈ (List.range' fresh (sp.cost cfg)).map PageId.ofIndex := by
  rw [sp.grown_of_full hrises.1, sp.cost_of_full hrises.1, Nat.add_comm 1, List.range'_succ,
    List.map_cons]
  exact graft_of_full hrises.2

end Spot

end PageTree

/-! ## Page by page -/

namespace View

/-- So many child pointers lead from one page to another. -/
inductive Descends (m : View) : Nat → PageId → PageId → Prop where
  | refl {id : PageId} : Descends m 0 id id
  | step {n : Nat} {id c last : PageId} (child : m.Child id c) (rest : Descends m n c last) :
    Descends m (n + 1) id last

/-- There are leaves below `root`, and all of them are `n` child pointers away. -/
def LeavesAt (m : View) (root : PageId) (n : Nat) : Prop :=
  (∃ id p, m.Descends n root id ∧ m.node? id = some (.leaf, p)) ∧
    ∀ k id p, m.Descends k root id → m.node? id = some (.leaf, p) → k = n

/-- The root was split between two views, where `n` pages were in use before: it has become an
internal node above two halves of its own kind, both on pages that are new. -/
def SplitsAt (root : PageId) (n : Nat) (m m' : View) : Prop :=
  ∃ (kind : NodeKind) (p q : Page) (left right : PageId), m.node? root = some (kind, p) ∧
    m'.node? root = some (.internal, q) ∧ q.children = [left, right] ∧
    ∀ half ∈ [left, right], n ≤ half.index ∧ ∃ h, m'.node? half = some (kind, h)

end View

/-- A page that so many child pointers lead to stands as deep in the tree. -/
theorem Unfolds.exists_of_descends {k : Nat} {id : PageId} (h : Unfolds m T) (hl : T.Leveled d)
    (hd : m.Descends k T.id id) :
    ∃ n u, d = k + n ∧ u.id = id ∧ Unfolds m u ∧ u.Leveled n := by
  generalize htop : T.id = top at hd
  induction hd generalizing T d with
  | refl => exact ⟨d, T, (Nat.zero_add d).symm, htop, h, hl⟩
  | step hchild _ ih =>
    subst htop
    obtain ⟨p, hp, hc⟩ := hchild
    rw [h.kids_of_node hp] at hc
    obtain ⟨kid, hkid, rfl⟩ := List.mem_map.mp hc
    cases hl with
    | leaf => cases hkid
    | branch hkids =>
      obtain ⟨n, u, rfl, hid, hu⟩ := ih (h.of_mem_nodes (PageTree.mem_nodes_of_kids hkid))
        (hkids kid hkid) rfl
      exact ⟨n, u, by omega, hid, hu⟩

/-- Below every node there is a leaf. -/
theorem Unfolds.exists_leaf {top : Bool} (h : Unfolds m T) (hl : T.Leveled d)
    (hw : T.Within f top) : ∃ id p, m.Descends d T.id id ∧ m.node? id = some (.leaf, p) := by
  induction h generalizing d top with
  | leaf hn =>
    cases hl with
    | leaf => exact ⟨_, _, .refl, hn⟩
  | @branch id kids p hn hc _ ih =>
    cases hl with
    | branch hkids =>
      rw [PageTree.within_branch] at hw
      have htwo := PageTree.two_le_kids hw.1.1
      obtain ⟨k, hk⟩ := List.exists_mem_of_length_pos (l := kids) (by omega)
      obtain ⟨leaf, q, hdesc, hleaf⟩ := ih k hk (hkids k hk) (hw.2 k hk)
      exact ⟨leaf, q, .step ⟨p, hn, hc ▸ List.mem_map_of_mem hk⟩ hdesc, hleaf⟩

/-- **The leaves of a level tree** are as many child pointers away from the root. -/
theorem Rooted.leavesAt (h : Rooted m root f T) (hl : T.Leveled d) : m.LeavesAt root d := by
  have hunf := h.held.unfolds
  rw [← h.id_eq]
  refine ⟨hunf.exists_leaf hl h.within, fun k id p hdesc hp => ?_⟩
  obtain ⟨n, u, rfl, rfl, hu, hlu⟩ := hunf.exists_of_descends hl hdesc
  cases hu with
  | leaf =>
    cases hlu with
    | leaf => rfl
  | branch hn =>
    rw [PageTree.id_branch, hn] at hp
    cases hp

/-- Nodes as deep as each other are of one kind. -/
theorem Unfolds.kind_eq {kind kind' : NodeKind} {p p' : Page} (h : Unfolds m t) (hl : t.Leveled d)
    (h' : Unfolds m' T) (hl' : T.Leveled d) (hn : m.node? t.id = some (kind, p))
    (hn' : m'.node? T.id = some (kind', p')) : kind = kind' := by
  cases hl with
  | leaf =>
    cases hl' with
    | leaf =>
      cases h with
      | leaf h =>
        cases h' with
        | leaf h' =>
          cases h.symm.trans hn
          cases h'.symm.trans hn'
          rfl
  | branch =>
    cases hl' with
    | branch =>
      cases h with
      | branch h =>
        cases h' with
        | branch h' =>
          cases h.symm.trans hn
          cases h'.symm.trans hn'
          rfl

/-- Where nothing has changed, the root was not split. -/
theorem View.not_splitsAt_self {s : Pager} (hs : s.Sound) (root : PageId) :
    ¬ View.SplitsAt root s.count s.view s.view := by
  rintro ⟨_, _, _, left, _, -, -, -, hnew⟩
  obtain ⟨hle, _, hn⟩ := hnew left List.mem_cons_self
  exact absurd (hs.index_lt_count hn) (Nat.not_lt.mpr hle)

/-- Where a node on the way to the spot has room, the root keeps its children, and no two pages that
are new take their place. -/
theorem Rooted.not_splitsAt {s : Pager} {sp : T.Spot key} (hs : s.Sound)
    (h : Rooted s.view root f T) (hl : T.Leveled d) (h' : Rooted m' root f (sp.grown cfg s.count x))
    (hnot : ¬ sp.Rises cfg) : ¬ View.SplitsAt root s.count s.view m' := by
  rintro ⟨_, _, q, left, right, -, hq, hchildren, hnew⟩
  have hunf' := h'.held.unfolds
  have hsub := sp.kidIds_grown s.count x hnot
  rw [← h'.id_eq] at hq
  rw [← hunf'.kids_of_node hq, hchildren] at hsub
  have hnil : T.kids = [] := by
    refine List.eq_nil_iff_forall_not_mem.mpr fun k hk => ?_
    obtain ⟨_, _, hn⟩ := (h.held.unfolds.of_mem_nodes (PageTree.mem_nodes_of_kids hk)).node
    have hle := (hnew _ (hsub (List.mem_map_of_mem hk))).1
    exact absurd (hs.index_lt_count hn) (Nat.not_lt.mpr hle)
  obtain rfl := (hl.kids_eq_nil_iff h.within).mp hnil
  have hl' := sp.leveled_grown s.count x hl hnot
  generalize sp.grown cfg s.count x = grown at hunf' hl' hq
  cases hl' with
  | leaf =>
    cases hunf' with
    | leaf hn => cases hn.symm.trans hq

/-- Where every node on the way to the spot is full, the root becomes a branch over two pages that
are new, of the kind that it was of itself. -/
theorem Rooted.splitsAt {s : Pager} {sp : T.Spot key} (h : Rooted s.view root f T)
    (hl : T.Leveled d) (hroom : s.count + sp.cost cfg ≤ maxPages)
    (h' : Rooted m' root f (sp.grown cfg s.count x)) (hrises : sp.Rises cfg) :
    View.SplitsAt root s.count s.view m' := by
  have hunf := h.held.unfolds
  have hunf' := h'.held.unfolds
  obtain ⟨kind, p, hp, -⟩ := h.held.node
  obtain ⟨i, L, R, heq, hids⟩ := sp.grown_of_rises s.count x hrises
  have hl' := sp.leveled_grown_of_rises s.count x hl hrises
  have hid := h'.id_eq
  rw [heq] at hunf' hl' hid
  rw [PageTree.leveled_branch] at hl'
  cases hunf' with
  | @branch _ _ q hn hc hk =>
    have hhalf : ∀ k ∈ [L, R], s.count ≤ k.id.index ∧ ∃ h, m'.node? k.id = some (kind, h) := by
      intro k hmem
      obtain ⟨j, hj, hji⟩ := List.mem_map.mp (hids k hmem)
      rw [List.mem_range'_1] at hj
      obtain ⟨kind', p', hp'⟩ := (hk k hmem).node
      have hlt : j < UInt32.size := Nat.lt_trans (Nat.lt_of_lt_of_le hj.2 hroom) (by decide)
      obtain rfl := hunf.kind_eq hl (hk k hmem) (hl' k hmem) hp hp'
      exact ⟨by rw [← hji, PageId.index_ofIndex hlt]; exact hj.1, p', hp'⟩
    rw [h.id_eq] at hp
    rw [show i = root from hid] at hn
    refine ⟨kind, p, q, L.id, R.id, hp, hn, hc, ?_⟩
    rw [List.forall_mem_cons, List.forall_mem_singleton] at hhalf ⊢
    exact hhalf

/-- **A new cell splits the root** exactly if every node on the way to its spot was full. -/
theorem Rooted.splitsAt_iff {s : Pager} {sp : T.Spot key} (hs : s.Sound)
    (h : Rooted s.view root f T) (hl : T.Leveled d) (hroom : s.count + sp.cost cfg ≤ maxPages)
    (h' : Rooted m' root f (sp.grown cfg s.count x)) :
    View.SplitsAt root s.count s.view m' ↔ sp.Rises cfg := by
  refine ⟨fun hsplits => ?_, h.splitsAt hl hroom h'⟩
  by_contra hnot
  exact h.not_splitsAt hs hl h' hnot hsplits

end PagedTable
