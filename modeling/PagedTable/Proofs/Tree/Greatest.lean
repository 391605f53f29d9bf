import PagedTable.Proofs.Tree.Termination

/-!
# Asking for the greatest key

The greatest key below a page is looked for along right children alone. In a whole tree that is the
greatest key of all leaves below. An insert that splits nodes asks for it where the pages are no
whole tree: once in every round of hooking in, below the lower half of the node that was split.

* `Tree.KnowsGreatest`: what is answered on a page of a whole tree.
* `Tree.Learns`: the key that a round of hooking in is told.
* `Tree.HalvesLeaf`: the first round is told the last key of the lower half of the leaf.
* `Tree.LeavesOver`: a later one is told the key that the round before it put into neither half.
* `greatest_told`: all of this, for every tree that passes the check.
-/

namespace PagedTable

open PagedTable.Action Pager Crumb
open PagedTable.Tree (greatest greatestFrom)

variable {T : Tree} {m : View} {s : Pager} {f : Fill} {t l r : PageTree} {cs : List Crumb}
  {id : PageId} {g : Key} {x : Cell}

/-! ## In a whole tree -/

/-- The greatest key below page `id` is known. -/
structure Tree.KnowsGreatest (T : Tree) (s : Pager) (id : PageId) : Prop where
  /-- The answer is the greatest key of all leaves below. It fails only for a root leaf that is
  empty. -/
  answer :
    (∃ g, (greatest id s).1 = .ok g ∧ IsGreatest {key | key ∈ s.view.keysBelow id} g) ∨
    (greatest id s).1 = .error (.refused (.treeCorrupted (.noGreatest id))) ∧ id = T.root ∧
      ∃ p, s.view.node? id = some (.leaf, p) ∧ p.count = 0
  /-- The parent has a link to the page or names it as right child. The key of a link is the
  answer. -/
  separator : id ≠ T.root → ∃ kind q p, s.view.node? id = some (kind, q) ∧
    s.view.node? q.parent = some (.internal, p) ∧ id ∈ p.children ∧
    ∀ link ∈ p.links, link.child = id → (greatest id s).1 = .ok link.key

/-- A leaf without cells has no greatest key. -/
theorem greatest_empty {p : Page} (hn : s.view.node? id = some (.leaf, p)) (hp : p.count = 0) :
    (greatest id s).1 = .error (.refused (.treeCorrupted (.noGreatest id))) := by
  unfold greatest
  rw [greatestFrom, bind_ok (node_run hn)]
  dsimp only
  rw [if_pos hp]
  rfl

namespace Rooted

/-- **The answer is the greatest key below.** -/
theorem greatest_cases (h : Rooted s.view T.root f t) (hr : s.view.Reaches T.root id) :
    (∃ g, (greatest id s).1 = .ok g ∧ IsGreatest {key | key ∈ s.view.keysBelow id} g) ∨
    (greatest id s).1 = .error (.refused (.treeCorrupted (.noGreatest id))) ∧ id = T.root ∧
      ∃ p, s.view.node? id = some (.leaf, p) ∧ p.count = 0 := by
  obtain ⟨u, hu, rfl, up, hheld⟩ := h.exists_held hr
  have hw := h.within_of_mem_nodes hu
  by_cases hempty : ∃ i, u = .leaf i []
  · obtain ⟨i, rfl⟩ := hempty
    cases hheld with
    | @leaf _ _ _ p hn _ hc =>
      have hcount : p.count = 0 := by rw [← p.length_cells, hc, List.length_nil]
      refine .inr ⟨greatest_empty hn hcount, ?_, p, hn, hcount⟩
      by_contra hne
      rw [decide_eq_false hne] at hw
      exact hw.cells_ne_nil (PageTree.cells_leaf i [])
  · have hcells := PageTree.cells_ne_nil hw (not_exists.mp hempty)
    obtain ⟨g, hg⟩ := Option.isSome_iff_exists.mp (PageTree.greatest?_isSome hcells)
    obtain ⟨s', -, hrun⟩ := Tree.greatest_run hheld hw hg
    exact .inl ⟨g, congrArg Prod.fst hrun, h.isGreatest_keysBelow hu hg⟩

/-- A page below the root has a parent, whose separator for it is the greatest key below it. -/
theorem knowsGreatest (h : Rooted s.view T.root f t) (hr : s.view.Reaches T.root id) :
    T.KnowsGreatest s id := by
  refine ⟨h.greatest_cases hr, fun hne => ?_⟩
  have hlinked := h.linked
  obtain ⟨⟨kind, q⟩, hq⟩ := Option.isSome_iff_exists.mp (hlinked.loads hr)
  obtain ⟨up, hup, p, hp, hchild⟩ := (Relation.ReflTransGen.cases_tail hr).resolve_left hne
  obtain rfl : q.parent = up := hlinked.parents hup ⟨p, hp, hchild⟩ hq
  refine ⟨kind, q, p, hq, hp, hchild, ?_⟩
  rintro link hlink rfl
  obtain ⟨g, hrun, hg⟩ := (h.greatest_cases hr).resolve_right fun hroot => hne hroot.2.1
  have hsep := hlinked.separators hup hp hlink
  rw [hrun, UInt32.le_antisymm (hsep.2 hg.1) (hg.2 hsep.1)]

end Rooted

/-! ## While halves are hooked in -/

/-- A round that hooks in the upper half of `left` asks for the greatest key below `left`, or, if
that is the root, below the page to which its content was moved. It is told `g`. -/
def Tree.Learns (T : Tree) (left : PageId) (s : Pager) (g : Key) : Prop :=
  ∃ asked up s', T.asking left s = (.ok (asked, up), s') ∧
    asked = (if left = T.root then .ofIndex s.count else left) ∧ (greatest asked s').1 = .ok g

/-- The halves of the leaf where the search for a key ends, with a new cell for that key. The first
round is told the last key of the lower half. -/
def Tree.HalvesLeaf (T : Tree) (s : Pager) (x : Cell) (halves : PageId × PageId) (s' : Pager) :
    Prop :=
  ∃ pos p cells g, (T.search x.key s).1 = .ok pos ∧ s.view.node? pos.page = some (.leaf, p) ∧
    halves.1 = pos.page ∧ p.cells.insertIdx pos.index x = cells ∧
    s'.view.IsLeaf halves.1 (cells.take ((cells.length + 1) / 2)) ∧
    s'.view.IsLeaf halves.2 (cells.drop ((cells.length + 1) / 2)) ∧
    (cells.take ((cells.length + 1) / 2)).getLast?.map Cell.key = some g ∧ T.Learns halves.1 s' g

/-- A round that was told `g` splits the branch above its halves, whose children with the upper half
among them are shared out. Of its keys with `g` among them one stays in neither half, and that is
what the next round is told. -/
def Tree.LeavesOver (T : Tree) (halves halves' : PageId × PageId) (s s' : Pager) : Prop :=
  ∃ p i g lower upper g', s.view.node? halves'.1 = some (.internal, p) ∧
    p.children[i]? = some halves.1 ∧ T.Learns halves.1 s g ∧
    s'.view.node? halves'.1 = some (.internal, lower) ∧
    s'.view.node? halves'.2 = some (.internal, upper) ∧
    p.children.insertIdx (i + 1) halves.2 = lower.children ++ upper.children ∧
    p.separators.insertIdx i g = lower.separators ++ g' :: upper.separators ∧
    T.Learns halves'.1 s' g'

/-- Halves of the root: its content is moved before the round asks. -/
theorem asking_top (h : Torn T m [] t l r s) (hroom : s.count < maxPages) :
    ∃ s', T.asking l.id s = (.ok (.ofIndex s.count, none), s') ∧
      Held s'.view T.root (some T.root) (l.moveTo (.ofIndex s.count)) := by
  obtain ⟨kind, p, hn, hisRoot⟩ := h.left.node_of_eq_root h.left_eq_root
  obtain ⟨s₁, hseen, hrun₁⟩ := node_seen hn
  have h₁ := h.seen hseen
  rw [← (hseen.sound h.sound).2] at hroom ⊢
  have hnd : (l.pages ++ r.pages).Nodup := by simpa using h.nodup
  obtain ⟨s', hrun, -, hheld⟩ :=
    moveRoot_run h₁.sound hroom h.left_eq_root h₁.left (List.nodup_append.mp hnd).1
  refine ⟨s', ?_, hheld⟩
  unfold Tree.asking
  rw [bind_ok hrun₁]
  dsimp only
  rw [if_pos hisRoot, bind_ok hrun, pure_apply]

/-- **A round is told the greatest key of the lower half.** -/
theorem Tree.Halved.learns (h : T.Halved f m cs t l r s) (hg : l.greatest? = some g) :
    T.Learns l.id s g := by
  obtain ⟨htorn, -, hl, -, hroom⟩ := h
  cases cs with
  | nil =>
    obtain ⟨s₁, hask, hheld⟩ := asking_top htorn hroom
    have hcopy : (l.moveTo (.ofIndex s.count)).greatest? = some g := by
      rwa [PageTree.greatest?_moveTo]
    obtain ⟨s₂, -, hrun⟩ := Tree.greatest_run hheld (hl.moveTo _) hcopy
    rw [PageTree.id_moveTo] at hrun
    exact ⟨_, _, s₁, hask, (if_pos htorn.left_eq_root).symm, congrArg Prod.fst hrun⟩
  | cons c cs =>
    obtain ⟨s₁, hseen, hask⟩ := asking_below htorn
    obtain ⟨s₂, -, hrun⟩ := Tree.greatest_run (htorn.seen hseen).left hl hg
    exact ⟨_, _, s₁, hask, (if_neg htorn.left_ne_root).symm, congrArg Prod.fst hrun⟩

/-- **The first round** is told the last key of the lower half of the leaf. -/
theorem PageTree.Spot.Halved.halvesLeaf {sp : t.Spot x.key} {new : PageId} {s' : Pager}
    (h : Rooted s.view T.root f t) (hsearch : (T.search x.key s).1 = .ok ⟨sp.leaf, sp.index, false⟩)
    (hhalved : sp.Halved T f s.view x new s') : T.HalvesLeaf s x (sp.leaf, new) s' := by
  obtain ⟨cells, hcells, hhalved⟩ := hhalved
  obtain ⟨p, hn, -, hpcells, -⟩ := sp.node h.held
  obtain ⟨g, hg⟩ :=
    Option.isSome_iff_exists.mp (PageTree.greatest?_isSome hhalved.lower.cells_ne_nil)
  refine ⟨_, p, cells, g, hsearch, hn, rfl, by rw [hpcells, hcells], hhalved.torn.left.isLeaf,
    hhalved.torn.right.isLeaf, ?_, hhalved.learns hg⟩
  rwa [PageTree.greatest?, PageTree.keys_leaf, List.getLast?_map] at hg

/-- **Each later round** is told the key that the round before it put into neither half. -/
theorem Tree.Hooks.leavesOver {pages : List PageId} {halves halves' : PageId × PageId} {s' : Pager}
    (ha : f.Admits T.config) (h : T.Hooks f m pages halves s)
    (hround : T.hooking.round halves s = (.ok (.inr halves'), s')) :
    T.LeavesOver halves halves' s s' ∧ ∃ pages', T.Hooks f m pages' halves' s' := by
  obtain ⟨cs, t, l, r, h, rfl, -⟩ := h
  rcases hooking_cases ha h with ⟨_, hdone, -⟩ | ⟨c, cs, _, p, g, _, rfl, rfl, hn, hg, hnext, h'⟩
  · cases hround.symm.trans hdone
  cases hround.symm.trans hnext
  refine ⟨?_, _, cs, _, _, _, h', rfl, rfl⟩
  have hseps := h.torn.separators hn hg
  obtain ⟨p', hn', -, hchildren, -⟩ := h.torn.parent
  rw [hn] at hn'
  cases hn'
  have hinsert := children_insert (r := r) hchildren
  have hkids := PageTree.forall_within_kids h.crumbs h.lower h.upper
  have hlen := PageTree.length_kids c l r
  generalize c.before ++ [l, r] ++ c.after = kids at *
  generalize hhalf : (kids.length + 1) / 2 = half at *
  obtain ⟨lower, hlower, hlowerseps⟩ := h'.torn.left.isBranch
  obtain ⟨upper, hupper, hupperseps⟩ := h'.torn.right.isBranch
  obtain ⟨g', hg'⟩ := Option.isSome_iff_exists.mp (PageTree.greatest?_isSome h'.lower.cells_ne_nil)
  refine ⟨p, c.before.length, g, lower, upper, g', hn, ?_, h.learns hg, hlower.node, hupper.node,
    ?_, ?_, h'.learns hg'⟩
  · rw [hchildren]
    simp
  · rw [hinsert, hlower.children_eq, hupper.children_eq, ← List.map_append,
      List.take_append_drop]
  · rw [← List.take_append_drop half kids] at hseps
    refine separators_append c.id hseps hlowerseps hupperseps (fun k hk => ?_) ?_ hg'
    · exact (hkids k (List.mem_of_mem_take hk)).cells_ne_nil
    · exact List.ne_nil_of_length_pos (by rw [List.length_drop]; omega)

/-! ## All calls -/

/-- **What asking for the greatest key answers.** Where a tree passes the check, on each of its
pages the answer is the greatest key of all leaves below, and the separator for that page in the
node above, if there is one. On an empty root there is none. An insert that has to split a leaf asks
once in every round of hooking in. The first round is told the last key of the lower half of the
leaf, each later one the key that the split of a branch before it left over, and this holds for the
root as well, whose content is moved before. -/
theorem greatest_told (T : Tree) (s : Pager) (hs : s.Reachable)
    (hvalid : (T.validate s).1 = .ok ()) :
    (∀ id, s.view.Reaches T.root id → T.KnowsGreatest s id) ∧
    ∀ key value halves s₁, T.insertBegin key value s = (.ok (some halves), s₁) →
      T.insert key value s = T.hook walkLength halves.1 halves.2 s₁ ∧
      (∀ left right, T.hooking.round (left, right) = (do
        let asked ← T.asking left
        let key ← greatest asked.1
        T.settle right asked key)) ∧
      T.HalvesLeaf s ⟨key, value⟩ halves s₁ ∧
      ∀ place st place' st', T.hooking.Passes halves s₁ place st →
        T.hooking.round place st = (.ok (.inr place'), st') →
          T.LeavesOver place place' st st' := by
  obtain ⟨t, h⟩ := Tree.validate_eq_ok_iff.mp hvalid
  have ha : T.config.fill.Admits T.config := T.config.fill_admits
  refine ⟨fun id hid => h.knowsGreatest hid, fun key value halves s₁ hrun => ?_⟩
  obtain ⟨sp, hsearch, rfl, hhalved⟩ :=
    halved_of_insertBegin (x := ⟨key, value⟩) ha hs.sound h hrun
  refine ⟨?_, T.hooking_round, hhalved.halvesLeaf h hsearch, ?_⟩
  · rw [Tree.insert_eq, bind_ok hrun]
    rfl
  · intro place st place' st' hpasses hround
    obtain ⟨_, -, hfirst⟩ := hhalved
    -- Wherever hooking in comes by, there are halves to be hooked in.
    obtain ⟨_, hat⟩ := hpasses.keeps
      (P := fun place st => ∃ pages, T.Hooks T.config.fill s.view pages place st)
      (fun ⟨_, hat⟩ hround => (hat.leavesOver ha hround).2) ⟨_, _, _, _, _, hfirst, rfl, rfl⟩
    exact (hat.leavesOver ha hround).1

/-- A root above three full leaves is split along with the leaf of a new key, and leaves one of its
keys over. -/
theorem greatest_told_threeLeaves :
    let T : Tree := { root := rootPage, config := { leafMax := 2, internalMax := 2 } }
    ∃ s : Pager, s.Reachable ∧ (T.validate s).1 = .ok () ∧ T.KnowsGreatest s rootPage ∧
      ∃ halves halves' s₁ s₂,
        T.insertBegin 7 (Vector.replicate _ 0) s = (.ok (some halves), s₁) ∧
        T.HalvesLeaf s ⟨7, Vector.replicate _ 0⟩ halves s₁ ∧
        T.hooking.round halves s₁ = (.ok (.inr halves'), s₂) ∧
        T.LeavesOver halves halves' s₁ s₂ := by
  intro T
  obtain ⟨s, hund, hused, h⟩ := PageTree.exists_threeLeaves T.config (by decide)
  change Rooted s.view T.root T.config.fill _ at h
  have hvalid := Tree.validate_eq_ok_iff.mpr ⟨_, h⟩
  obtain ⟨hknows, hinsert⟩ := greatest_told T s hund.reachable hvalid
  obtain ⟨sp, s₁, hbegin, _, -, hhalved⟩ := insertBegin_threeLeaves (x := ⟨7, Vector.replicate _ 0⟩)
    hund.reachable.sound h hused rfl (by rw [PageTree.keys_threeLeaves]; decide)
  obtain ⟨-, -, hleaf, hlater⟩ := hinsert _ _ _ _ hbegin
  rcases hooking_cases T.config.fill_admits hhalved with
    ⟨_, -, hroom⟩ | ⟨_, _, _, _, _, s₂, -, -, -, -, hround, -⟩
  · -- The branch above the leaf is the root, and that is full.
    have hplug := sp.plug_eq
    cases hcs : sp.crumbs with
    | nil =>
      rw [hcs] at hplug
      cases hplug
    | cons c cs =>
      have hmem := PageTree.mem_nodes_plug cs (c.around [.leaf sp.leaf sp.cells])
      rw [hcs] at hplug hroom
      rw [← PageTree.plug, hplug] at hmem
      have hkids := (length_around c _).symm.trans (PageTree.kids_of_mem_threeLeaves hmem)
      rw [List.length_singleton] at hkids
      have hlt : c.beside.length < 2 := hroom c rfl
      omega
  · exact ⟨s, hund.reachable, hvalid, hknows _ .refl, _, _, s₁, s₂, hbegin, hleaf, hround,
      hlater _ _ _ _ .here hround⟩

end PagedTable
