import PagedTable.Proofs.PageTree.Halves
import PagedTable.Proofs.Tree.SplitCost

/-!
# What goes into which half

A full leaf with one more cell, and a full internal node with one more child, are divided over two
pages: half of the cells or children, rounded up, stay on the lower page, the others move to a new
one.

* `Tree.Overflows`: the nodes that a new cell in a leaf makes overflow, from the leaf up.
* `Spot.SplitsTo`: the halves of such a node, and the tree that the splits above them make.
  `Tree.Overflows.exists_splitsTo`: there are halves for every one.
* `View.IsLeaf`, `View.IsBranch`, `View.Divided`: halves, said page by page.
* `insert_distributes`: what an insert leaves of every node that overflows (`Tree.Distributes`).
-/

namespace PagedTable

open PagedTable.Action Pager Crumb
open PageTree (plug graft home)

variable {m : View} {root id lower upper : PageId} {f : Fill} {t l r : PageTree}
  {cfg : Config} {key : Key} {x : Cell} {k n : Nat} {above : List Crumb}

/-! ## Nodes that overflow -/

/-- Node `id`, which stands `k` levels above `leaf`, overflows when a cell is put into the leaf: it
is as full as it may be, and so is every node on the way up to it. -/
inductive Tree.Overflows (T : Tree) (m : View) (leaf : PageId) : Nat → PageId → Prop where
  | leaf {p : Page} (node : m.node? leaf = some (.leaf, p)) (full : T.config.leafMax ≤ p.count) :
    Overflows T m leaf 0 leaf
  | parent {k : Nat} {id : PageId} {kind : NodeKind} {p q : Page} (below : Overflows T m leaf k id)
    (ne_root : id ≠ T.root) (node : m.node? id = some (kind, p))
    (up : m.node? p.parent = some (.internal, q)) (full : T.config.internalMax ≤ q.count) :
    Overflows T m leaf (k + 1) p.parent

/-- **One level further up**: the branch above a node that overflows does so if it is full. -/
theorem Tree.Overflows.branch {T : Tree} {leaf : PageId} {c : Crumb} {cs : List Crumb}
    (h : Held m T.root none (plug (c :: cs) t)) (hroot : (plug (c :: cs) t).id = T.root)
    (hnd : (plug (c :: cs) t).pages.Nodup) (hover : T.Overflows m leaf k t.id)
    (hfull : T.config.internalMax ≤ c.beside.length) : T.Overflows m leaf (k + 1) c.id := by
  obtain ⟨kind, p, hp, hplaced⟩ := h.of_plug.node
  obtain ⟨q, hq, -, hcount⟩ := h.node_of_plug
  have hparent : p.parent = c.id := hplaced.parent up_cons
  have hne : t.id ≠ T.root := hroot ▸ PageTree.id_ne_plug hnd
  have hup := Tree.Overflows.parent hover hne hp (hparent ▸ hq) (hcount ▸ hfull)
  rwa [hparent] at hup

/-- The splits have come up to node `id`, which stands `k` levels above the leaf of the spot, and
have divided it into two halves. `above` is the way from the root down to it. -/
structure PageTree.Spot.SplitsTo (cfg : Config) (n : Nat) (x : Cell) (sp : t.Spot key) (k : Nat)
    (id : PageId) (above : List Crumb) (l r : PageTree) : Prop where
  plug_eq : ∃ old, plug above old = t ∧ old.id = id
  grown_eq : sp.grown cfg n x = graft cfg (n + k + 1) above l r
  cost_eq : sp.cost cfg = k + 1 + risers cfg above
  left_id : l.id = id
  right_id : r.id = .ofIndex (n + k)

namespace PageTree.Spot.SplitsTo

variable {sp : t.Spot key}

/-- The halves of a full leaf. -/
theorem of_leaf (sp : t.Spot key) (hfull : cfg.leafMax ≤ sp.cells.length) {cells : List Cell}
    (hcells : sp.cells.insertIdx sp.index x = cells) :
    sp.SplitsTo cfg n x 0 sp.leaf sp.crumbs (.leaf sp.leaf (cells.take ((cells.length + 1) / 2)))
      (.leaf (.ofIndex n) (cells.drop ((cells.length + 1) / 2))) := by
  subst hcells
  constructor
  case plug_eq => exact ⟨_, sp.plug_eq, rfl⟩
  case grown_eq => exact sp.grown_of_full hfull
  case cost_eq => rw [sp.cost_of_full hfull, Nat.zero_add]
  case left_id => rfl
  case right_id => rfl

/-- **One level further up**: the halves of a full branch that takes the upper half in beside the
lower one. -/
theorem step {c : Crumb} {kids : List PageTree} (h : sp.SplitsTo cfg n x k id (c :: above) l r)
    (hfull : cfg.internalMax ≤ c.beside.length) (hkids : c.before ++ [l, r] ++ c.after = kids) :
    sp.SplitsTo cfg n x (k + 1) c.id above (.branch c.id (kids.take ((kids.length + 1) / 2)))
      (.branch (.ofIndex (n + (k + 1))) (kids.drop ((kids.length + 1) / 2))) := by
  subst hkids
  have hnot := Nat.not_lt.mpr hfull
  obtain ⟨old, hplug, -⟩ := h.plug_eq
  constructor
  case plug_eq => exact ⟨c.around [old], hplug, rfl⟩
  case grown_eq =>
    rw [h.grown_eq, graft, if_neg hnot]
    rfl
  case cost_eq =>
    rw [h.cost_eq, risers, if_neg hnot]
    omega
  case left_id => rfl
  case right_id => rfl

/-- The root has nothing above it. -/
theorem eq_root_iff (h : sp.SplitsTo cfg n x k id above l r) (hnd : t.pages.Nodup) :
    id = t.id ↔ above = [] := by
  obtain ⟨old, hplug, rfl⟩ := h.plug_eq
  cases above with
  | nil => exact iff_of_true (congrArg PageTree.id hplug) rfl
  | cons c cs =>
    refine iff_of_false (fun heq => ?_) (List.cons_ne_nil c cs)
    rw [← hplug] at hnd heq
    exact PageTree.id_ne_plug hnd heq

/-- The node above one that is split, unless that is the root: the branch of the last step. -/
theorem exists_parent {T : Tree} {p q : Page} {kind : NodeKind} (h : Rooted m T.root f t)
    (hsp : sp.SplitsTo cfg n x k id above l r) (hne : id ≠ T.root)
    (hp : m.node? id = some (kind, p)) (hq : m.node? p.parent = some (.internal, q)) :
    ∃ c cs, above = c :: cs ∧ c.id = p.parent ∧ q.count = c.beside.length ∧
      q.children = c.before.map PageTree.id ++ id :: c.after.map PageTree.id := by
  rw [← h.id_eq, ne_eq, hsp.eq_root_iff h.nodup] at hne
  obtain ⟨c, cs, rfl⟩ := List.exists_cons_of_ne_nil hne
  obtain ⟨old, hplug, rfl⟩ := hsp.plug_eq
  have hheld := h.held
  rw [← hplug] at hheld
  obtain ⟨_, _, hn, hplaced⟩ := hheld.of_plug.node
  cases hn.symm.trans hp
  have hid : p.parent = c.id := hplaced.parent up_cons
  obtain ⟨q', hq', hchildren, hcount⟩ := hheld.node_of_plug
  rw [← hid, hq] at hq'
  cases hq'
  exact ⟨c, cs, rfl, hid.symm, hcount, hchildren⟩

end PageTree.Spot.SplitsTo

/-- The cells of the leaf and the new one are among those of the tree, in the same order. -/
theorem PageTree.Spot.insertIdx_sublist_grown (sp : t.Spot key) (cfg : Config) (n : Nat)
    (x : Cell) :
    (sp.cells.insertIdx sp.index x).Sublist (sp.grown cfg n x).cells := by
  rw [sp.cells_grown, sp.insertIdx_cells]
  exact (List.sublist_append_right _ _).append ((List.sublist_append_left _ _).cons_cons x)

/-- **Every node that overflows is split.** -/
theorem Tree.Overflows.exists_splitsTo {T : Tree} {sp : t.Spot key} (h : Rooted m T.root f t)
    (hover : T.Overflows m sp.leaf k id) (n : Nat) (x : Cell) :
    ∃ above l r, sp.SplitsTo T.config n x k id above l r := by
  generalize hleaf : sp.leaf = leaf at hover
  induction hover with
  | leaf hp hfull =>
    subst hleaf
    obtain ⟨p, hn, -, -, hcount⟩ := sp.node h.held
    cases hn.symm.trans hp
    exact ⟨_, _, _, .of_leaf sp (hcount ▸ hfull) rfl⟩
  | parent _ hne hp hq hfull ih =>
    obtain ⟨above, l, r, hsp⟩ := ih
    obtain ⟨c, cs, rfl, hid, hcount, -⟩ := hsp.exists_parent h hne hp hq
    rw [← hid]
    exact ⟨_, _, _, hsp.step (hcount ▸ hfull) rfl⟩

/-! ## Halves, page by page -/

namespace View

/-- Page `id` is a leaf with these cells. -/
def IsLeaf (m : View) (id : PageId) (cells : List Cell) : Prop :=
  ∃ p, m.node? id = some (.leaf, p) ∧ p.cells = cells

/-- Page `id` is the internal node `p` with these children, and each of them names it as its
parent. -/
structure IsBranch (m : View) (id : PageId) (p : Page) (children : List PageId) : Prop where
  node : m.node? id = some (.internal, p)
  children_eq : p.children = children
  parents : ∀ c ∈ children, ∃ kind q, m.node? c = some (kind, q) ∧ q.parent = id

/-- The children are divided over two internal nodes: the first half of them, rounded up, stands
below `lower`, the others below `upper`. The greatest key below `lower` is a separator of neither,
but one of the nodes above both has it, once. -/
def Divided (m : View) (root lower upper : PageId) (children : List PageId) : Prop :=
  ∃ p q g, m.IsBranch lower p (children.take ((children.length + 1) / 2)) ∧
    m.IsBranch upper q (children.drop ((children.length + 1) / 2)) ∧
    IsGreatest {key | key ∈ m.keysBelow lower} g ∧ g ∉ p.separators ∧ g ∉ q.separators ∧
    m.Parted root g lower upper

end View

/-- The page of a branch. -/
theorem Held.isBranch {up : Option PageId} {kids : List PageTree}
    (h : Held m root up (.branch id kids)) :
    ∃ p, m.IsBranch id p (kids.map PageTree.id) ∧
      p.separators.map some = kids.dropLast.map PageTree.greatest? := by
  cases h with
  | @branch _ _ _ p hn _ hc hs hk =>
    refine ⟨p, ⟨hn, hc, fun c hmem => ?_⟩, hs⟩
    obtain ⟨kid, hkid, rfl⟩ := List.mem_map.mp hmem
    obtain ⟨kind, q, hq, hplaced⟩ := (hk kid hkid).node
    exact ⟨kind, q, hq, hplaced.parent rfl⟩

/-- The page of a leaf. -/
theorem Held.isLeaf {up : Option PageId} {cells : List Cell} (h : Held m root up (.leaf id cells)) :
    m.IsLeaf id cells := by
  cases h with
  | leaf hn _ hc => exact ⟨_, hn, hc⟩

theorem Rooted.isLeaf {cells : List Cell} (h : Rooted m root f t)
    (hmem : .leaf id cells ∈ t.nodes) : m.IsLeaf id cells := by
  obtain ⟨_, hheld⟩ := h.held.of_mem_nodes hmem
  exact hheld.isLeaf

/-- A root above a full leaf overflows with it if it has as many children as it may have. -/
theorem Tree.Overflows.of_kid {T : Tree} {leaf : PageId} {cells : List Cell} {kids : List PageTree}
    (h : Rooted m T.root f (.branch T.root kids)) (hmem : .leaf leaf cells ∈ kids)
    (hleaf : T.config.leafMax ≤ cells.length) (hkids : T.config.internalMax + 1 ≤ kids.length) :
    T.Overflows m leaf 1 T.root := by
  obtain ⟨before, after, rfl⟩ := List.append_of_mem hmem
  have hplug : plug [⟨T.root, before, after⟩] (.leaf leaf cells) =
      .branch T.root (before ++ .leaf leaf cells :: after) := by
    simp [around]
  rw [← hplug] at h
  obtain ⟨p, hp, -, -, hcount⟩ := h.held.leaf_of_plug
  refine .branch h.held h.id_eq h.nodup (.leaf hp (hcount ▸ hleaf)) ?_
  rw [List.length_append, List.length_cons] at hkids
  rw [beside, List.length_append]
  dsimp only
  omega

/-- A branch of a whole tree has cells below it. -/
theorem Rooted.branch_cells_ne_nil {T : PageTree} {kids : List PageTree} (h : Rooted m root f T)
    (hmem : .branch id kids ∈ T.nodes) : (PageTree.branch id kids).cells ≠ [] :=
  PageTree.cells_ne_nil (h.within_of_mem_nodes hmem) fun _ heq => by cases heq

/-- **Halves of a branch** that a separator parts. -/
theorem Rooted.divided {s : Pager} {T : PageTree} {kids : List PageTree}
    (h : Rooted s.view root f T)
    (hlower : .branch lower (kids.take ((kids.length + 1) / 2)) ∈ T.nodes)
    (hupper : .branch upper (kids.drop ((kids.length + 1) / 2)) ∈ T.nodes)
    (hparted : ∀ g, (PageTree.branch lower (kids.take ((kids.length + 1) / 2))).greatest? = some g →
      s.view.Parted root g lower upper) :
    s.view.Divided root lower upper (kids.map PageTree.id) := by
  obtain ⟨_, hheldl⟩ := h.held.of_mem_nodes hlower
  obtain ⟨_, hheldu⟩ := h.held.of_mem_nodes hupper
  obtain ⟨p, hp, -⟩ := hheldl.isBranch
  obtain ⟨q, hq, -⟩ := hheldu.isBranch
  obtain ⟨g, hg⟩ := Option.isSome_iff_exists.mp
    (PageTree.greatest?_isSome (h.branch_cells_ne_nil hlower))
  have hacyclic : s.view.Acyclic root := h.id_eq ▸ h.held.unfolds.acyclic
  rw [List.map_take] at hp
  rw [List.map_drop] at hq
  refine ⟨p, q, g, ?_, ?_, ?_, ?_, ?_, hparted g hg⟩
  · rwa [List.length_map]
  · rwa [List.length_map]
  · exact h.isGreatest_keysBelow hlower hg
  · exact hacyclic.separator_notMem (h.reaches_of_mem_nodes hlower) hp.node fun _ _ hsep =>
      ((hparted g hg).above _ _ hsep).1
  · exact hacyclic.separator_notMem (h.reaches_of_mem_nodes hupper) hq.node fun _ _ hsep =>
      ((hparted g hg).above _ _ hsep).2

/-! ## Inserts -/

namespace Tree

/-- The page of the lower half of node `id` in the state `s'`: the page of the node, unless that is
the root, whose content has moved to the page that was taken last. -/
def lowerPage (T : Tree) (s' : Pager) (id : PageId) : PageId :=
  if id = T.root then .ofIndex (s'.count - 1) else id

/-- What an insert of the cell `x` into the full leaf `page`, which held `p`, leaves of all nodes
that overflow. The upper half of the leaf takes the first page that was not in use, and the upper
half of the node `k` levels above it the page `k` after that. -/
structure Distributes (T : Tree) (s s' : Pager) (page : PageId) (p : Page) (x : Cell) : Prop where
  /-- Of the cells, in key order, half of them, rounded up, are on the lower page. -/
  cells : ∃ cells : List Cell, cells.Perm (x :: p.cells) ∧ (cells.map Cell.key).Pairwise (· < ·) ∧
    s'.view.IsLeaf (T.lowerPage s' page) (cells.take ((cells.length + 1) / 2)) ∧
    s'.view.IsLeaf (.ofIndex s.count) (cells.drop ((cells.length + 1) / 2))
  /-- The children of an internal node are divided, with the upper half of the child that overflows
  behind that child. -/
  children : ∀ {k id}, T.Overflows s.view page (k + 1) id → ∃ child q i,
    T.Overflows s.view page k child ∧ s.view.node? id = some (.internal, q) ∧
    q.children[i]? = some child ∧
    s'.view.Divided T.root (T.lowerPage s' id) (.ofIndex (s.count + (k + 1)))
      (q.children.insertIdx (i + 1) (.ofIndex (s.count + k)))
  /-- A root that overflows is left with its halves as children and one key between them. -/
  root : ∀ {k}, T.Overflows s.view page k T.root → s'.count = s.count + k + 2 ∧
    ∃ q g, s'.view.IsBranch T.root q [T.lowerPage s' T.root, .ofIndex (s.count + k)] ∧
      q.separators = [g] ∧ IsGreatest {key | key ∈ s'.view.keysBelow (T.lowerPage s' T.root)} g

section

variable {T : Tree} {s s' : Pager} {sp : t.Spot x.key}

/-- The page of a lower half. -/
theorem home_eq_lowerPage (h : Rooted s.view T.root f t)
    (hsp : sp.SplitsTo T.config s.count x k id above l r)
    (hcount : s'.count = s.count + sp.cost T.config) :
    home (s.count + k + 1) above id = T.lowerPage s' id := by
  have hiff := hsp.eq_root_iff h.nodup
  rw [h.id_eq] at hiff
  unfold lowerPage
  cases above with
  | nil =>
    rw [if_pos (hiff.mpr rfl), home, hcount, hsp.cost_eq, risers]
    congr 1
  | cons c cs => rw [if_neg (hiff.not.mpr (List.cons_ne_nil c cs)), home]

/-- **The halves of the leaf.** -/
theorem isLeaf_halves (h : Rooted s.view T.root f t)
    (h' : Rooted s'.view T.root f (sp.grown T.config s.count x))
    (hcount : s'.count = s.count + sp.cost T.config)
    (hfull : T.config.leafMax ≤ sp.cells.length) {cells : List Cell}
    (hcells : sp.cells.insertIdx sp.index x = cells) :
    s'.view.IsLeaf (T.lowerPage s' sp.leaf) (cells.take ((cells.length + 1) / 2)) ∧
      s'.view.IsLeaf (.ofIndex s.count) (cells.drop ((cells.length + 1) / 2)) := by
  have hsp := PageTree.Spot.SplitsTo.of_leaf (n := s.count) sp hfull hcells
  rw [hsp.grown_eq] at h'
  obtain ⟨hlower, hupper⟩ := PageTree.mem_nodes_graft T.config (s.count + 0 + 1) sp.crumbs
    (.leaf sp.leaf (cells.take ((cells.length + 1) / 2)))
    (.leaf (.ofIndex s.count) (cells.drop ((cells.length + 1) / 2)))
  rw [← home_eq_lowerPage h hsp hcount]
  exact ⟨h'.isLeaf hlower, h'.isLeaf hupper⟩

/-- **The halves of an internal node.** -/
theorem Overflows.divided (h : Rooted s.view T.root f t)
    (h' : Rooted s'.view T.root f (sp.grown T.config s.count x))
    (hcount : s'.count = s.count + sp.cost T.config)
    (hover : T.Overflows s.view sp.leaf (k + 1) id) :
    ∃ child q i, T.Overflows s.view sp.leaf k child ∧ s.view.node? id = some (.internal, q) ∧
      q.children[i]? = some child ∧
      s'.view.Divided T.root (T.lowerPage s' id) (.ofIndex (s.count + (k + 1)))
        (q.children.insertIdx (i + 1) (.ofIndex (s.count + k))) := by
  cases hover with
  | @parent _ child _ p q hbelow hne hp hq hfull =>
    obtain ⟨above, l, r, hsp⟩ := hbelow.exists_splitsTo h s.count x
    obtain ⟨c, cs, rfl, hid, hbeside, hchildren⟩ := hsp.exists_parent h hne hp hq
    have hchild : q.children[c.before.length]? = some child := by
      rw [hchildren, List.getElem?_append_right (by simp), List.length_map, Nat.sub_self]
      rfl
    rw [← hsp.left_id] at hchildren
    have hinsert := children_insert (r := r) hchildren
    rw [hsp.right_id] at hinsert
    generalize hkids : c.before ++ [l, r] ++ c.after = kids at hinsert
    have hstep := hsp.step (hbeside ▸ hfull) hkids
    refine ⟨child, q, _, hbelow, hq, hchild, ?_⟩
    rw [hstep.grown_eq] at h'
    rw [← hid, hinsert, ← home_eq_lowerPage h hstep hcount]
    obtain ⟨hlower, hupper⟩ := PageTree.mem_nodes_graft T.config (s.count + (k + 1) + 1) cs
      (.branch c.id (kids.take ((kids.length + 1) / 2)))
      (.branch (.ofIndex (s.count + (k + 1))) (kids.drop ((kids.length + 1) / 2)))
    exact h'.divided hlower hupper fun g hg =>
      h'.parted_graft (by rwa [← PageTree.greatest?_moveTo]) (h'.branch_cells_ne_nil hupper)

/-- **The root above its halves.** -/
theorem Overflows.root_halves (h : Rooted s.view T.root f t)
    (h' : Rooted s'.view T.root f (sp.grown T.config s.count x))
    (hcount : s'.count = s.count + sp.cost T.config)
    (hover : T.Overflows s.view sp.leaf k T.root) :
    s'.count = s.count + k + 2 ∧
      ∃ q g, s'.view.IsBranch T.root q [T.lowerPage s' T.root, .ofIndex (s.count + k)] ∧
        q.separators = [g] ∧
        IsGreatest {key | key ∈ s'.view.keysBelow (T.lowerPage s' T.root)} g := by
  obtain ⟨above, l, r, hsp⟩ := hover.exists_splitsTo h s.count x
  obtain rfl := (hsp.eq_root_iff h.nodup).mp h.id_eq.symm
  refine ⟨?_, ?_⟩
  · rw [hcount, hsp.cost_eq, risers]
    omega
  rw [← home_eq_lowerPage h hsp hcount, home]
  rw [hsp.grown_eq, graft] at h'
  have hmem : l.moveTo (.ofIndex (s.count + k + 1)) ∈
      (PageTree.branch l.id [l.moveTo (.ofIndex (s.count + k + 1)), r]).nodes :=
    PageTree.mem_nodes_of_mem_kids List.mem_cons_self
  obtain ⟨q, hq, hseps⟩ := h'.held.isBranch
  rw [hsp.left_id, List.map_cons, List.map_singleton, PageTree.id_moveTo, hsp.right_id] at hq
  -- The one separator is the greatest key of the lower half.
  obtain ⟨g, hg, hgreatest⟩ := List.map_eq_singleton_iff.mp
    (show q.separators.map some = [(l.moveTo (.ofIndex (s.count + k + 1))).greatest?] from hseps)
  have hbelow := h'.isGreatest_keysBelow hmem hgreatest.symm
  rw [PageTree.id_moveTo] at hbelow
  exact ⟨q, g, hq, hg, hbelow⟩

end

/-- **An insert divides every node that overflows.** In a tree that passes the check an insert that
succeeds goes into the leaf where the search ends. If the leaf is full, its cells and the new one
are divided over its page and the first one that was not in use, half of them, rounded up, on the
lower page. So are the children of every internal node that overflows on the way up: each of them
names the page that now holds it as its parent, and the separator between the halves is in neither
but is one separator of one of the nodes above. The lower half stays on the page of the node. Only
that of the root moves, to the page taken last, and the root keeps the greatest key below it as its
one key. -/
theorem insert_distributes (T : Tree) (s s' : Pager) (key : Key) (value : Payload)
    (hs : s.Reachable) (hvalid : (T.validate s).1 = .ok ())
    (hrun : T.insert key value s = (.ok (), s')) :
    ∃ pos p, (T.search key s).1 = .ok pos ∧ s.view.node? pos.page = some (.leaf, p) ∧
      (T.config.leafMax ≤ p.count → T.Distributes s s' pos.page p ⟨key, value⟩) := by
  obtain ⟨t, h⟩ := validate_eq_ok_iff.mp hvalid
  have ha := T.config.fill_admits
  obtain ⟨sp, found, s₁, hfound, hseen₁, hrun₁⟩ := search_run h key
  obtain ⟨p, hn, -, hcells, hcount⟩ := sp.node h.held
  refine ⟨_, p, congrArg Prod.fst hrun₁, hn, fun hfull => ?_⟩
  rw [hcount] at hfull
  -- The insert succeeded, so the key was absent and there was room.
  have hr := insert_run ha hs.sound h ⟨key, value⟩
  rw [show T.insert key value s = _ from hrun] at hr
  cases hr with
  | added sp' notMem hroom =>
    obtain rfl : found = false := Bool.eq_false_iff.mpr fun hf => notMem (hfound.mp hf)
    obtain ⟨hover, hsplit⟩ :=
      insert_full_run (x := ⟨key, value⟩) ha hs.sound h sp notMem hseen₁ hrun₁ hfull
    have hpages : s.count + sp.cost T.config ≤ maxPages := by
      by_contra hexcess
      obtain ⟨_, -, herror⟩ := hover (Nat.lt_of_not_le hexcess)
      cases hrun.symm.trans herror
    obtain ⟨_, hok, -, hcount', h', -⟩ := hsplit hpages
    cases hrun.symm.trans hok
    have hsub := sp.insertIdx_sublist_grown T.config s.count ⟨key, value⟩
    constructor
    case cells =>
      refine ⟨_, ?_, h'.ordered.sublist (hsub.map _),
        isLeaf_halves (x := ⟨key, value⟩) h h' hcount' hfull rfl⟩
      rw [hcells]
      exact List.perm_insertIdx _ _ sp.index_le
    case children => exact fun hover => hover.divided (x := ⟨key, value⟩) h h' hcount'
    case root => exact fun hover => hover.root_halves (x := ⟨key, value⟩) h h' hcount'

/-- A new key is inserted into the tree of three leaves. -/
theorem insert_threeLeaves {T : Tree} {x : Cell} (hs : s.Sound)
    (h : Rooted s.view T.root T.config.fill PageTree.threeLeaves) (hused : s.count ≤ 4)
    (hkey : x.key ∉ PageTree.threeLeaves.keys) :
    ∃ s', T.insert x.key x.value s = (.ok (), s') := by
  obtain ⟨-, s', hrun, -⟩ := (insert_run T.config.fill_admits hs h x).added_of hkey
    (PageTree.room_threeLeaves T.config hused)
  exact ⟨s', hrun⟩

/-- A root above three full leaves, which may have no more: whichever leaf a cell goes into, it
overflows, and so does the root. -/
theorem insert_distributes_root :
    let T : Tree := { root := rootPage, config := { leafMax := 2, internalMax := 2 } }
    ∃ s s' : Pager, s.Reachable ∧ (T.validate s).1 = .ok () ∧
      T.insert 7 (Vector.replicate _ 0) s = (.ok (), s') ∧
      ∃ pos p, (T.search 7 s).1 = .ok pos ∧ T.Overflows s.view pos.page 1 T.root ∧
        T.Distributes s s' pos.page p ⟨7, Vector.replicate _ 0⟩ := by
  intro T
  obtain ⟨s, hund, hused, h⟩ := PageTree.exists_threeLeaves T.config (by decide)
  change Rooted s.view T.root T.config.fill _ at h
  have hvalid := validate_eq_ok_iff.mpr ⟨_, h⟩
  obtain ⟨s', hrun⟩ := insert_threeLeaves (x := ⟨7, Vector.replicate _ 0⟩) hund.reachable.sound h
    hused (by rw [PageTree.keys_threeLeaves]; decide)
  obtain ⟨pos, p, hsearch, hn, hdistributes⟩ :=
    insert_distributes T s s' 7 (Vector.replicate _ 0) hund.reachable hvalid hrun
  obtain ⟨hkid, hlen⟩ := PageTree.leaf_of_mem_threeLeaves (search_leaf h hsearch hn)
  exact ⟨s, s', hund.reachable, hvalid, hrun, pos, p, hsearch,
    .of_kid h hkid (Nat.le_of_eq hlen.symm) (by decide),
    hdistributes (Nat.le_of_eq (hlen.symm.trans p.length_cells))⟩

end Tree

end PagedTable
