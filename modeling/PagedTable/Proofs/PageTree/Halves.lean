import PagedTable.Proofs.PageTree.Level

/-!
# Where halves and separators end up

A node that overflows leaves two halves. Wherever the splits above them part the tree, both halves
stay nodes of it, and the greatest key of the lower half is a separator in exactly one node, which
stands above both.

* `PageTree.SeparatesAt`: a key is a separator. `SeparatesAt.unique`: in an ordered tree it is one
  in one place at most.
* `PageTree.exists_parting`: between nodes with no key between them there is a separator.
* `PageTree.mem_nodes_graft`: halves are nodes of the tree with both (`PageTree.home`).
* `View.Parted`: a separator parts two pages. `Rooted.parted_graft`: it parts the pages of halves.
-/

namespace PagedTable

open Crumb
open PageTree (plug graft)

variable {m : View} {root : PageId} {f : Fill} {top : Bool} {T b b' l r : PageTree}
  {cs : List Crumb} {cfg : Config} {fresh i i' : Nat} {g : Key}

namespace PageTree

/-! ## Separators -/

/-- The greatest key of subtree `i` is `g`, and another subtree follows. -/
def SeparatesAt (b : PageTree) (i : Nat) (g : Key) : Prop :=
  i + 1 < b.kids.length ∧ ∃ k, b.kids[i]? = some k ∧ k.greatest? = some g

theorem keys_subset_of_kids {k : PageTree} (hk : k ∈ b.kids) : k.keys ⊆ b.keys :=
  (keys_sublist_of_mem_nodes (mem_nodes_of_kids hk)).subset

theorem SeparatesAt.mem_keys (h : b.SeparatesAt i g) : g ∈ b.keys := by
  obtain ⟨-, k, hk, hg⟩ := h
  exact keys_subset_of_kids (List.mem_of_getElem? hk) (greatest?_mem hg)

/-- Keys of subtrees are in the order of the subtrees. -/
theorem lt_of_kids {a c : PageTree} {g' : Key} (hs : b.keys.Pairwise (· < ·))
    (ha : b.kids[i]? = some a) (hc : b.kids[i']? = some c) (hlt : i < i') (hg : g ∈ a.keys)
    (hg' : g' ∈ c.keys) : g < g' := by
  cases b with
  | leaf => cases ha
  | branch id kids =>
    rw [keys_branch] at hs
    obtain ⟨hi, rfl⟩ := List.getElem?_eq_some_iff.mp ha
    obtain ⟨hi', rfl⟩ := List.getElem?_eq_some_iff.mp hc
    exact List.pairwise_iff_getElem.mp (List.pairwise_flatMap.mp hs).2 i i' hi hi' hlt g hg g' hg'

/-- A key is in one subtree only. -/
theorem kid_unique {a c : PageTree} (hs : b.keys.Pairwise (· < ·)) (ha : b.kids[i]? = some a)
    (hc : b.kids[i']? = some c) (hg : g ∈ a.keys) (hg' : g ∈ c.keys) : i = i' := by
  rcases Nat.lt_trichotomy i i' with hlt | heq | hlt
  · exact absurd (lt_of_kids hs ha hc hlt hg hg') (UInt32.lt_irrefl g)
  · exact heq
  · exact absurd (lt_of_kids hs hc ha hlt hg' hg) (UInt32.lt_irrefl g)

/-- A node of a branch is the branch or a node of one of its subtrees. -/
theorem eq_or_exists_of_mem_nodes (hb : b ∈ T.nodes) :
    b = T ∨ ∃ (j : Nat) (k : PageTree), T.kids[j]? = some k ∧ b ∈ k.nodes := by
  cases T with
  | leaf id cells => exact .inl (by simpa using hb)
  | branch id kids =>
    rw [nodes_branch, List.mem_cons, List.mem_flatMap] at hb
    refine hb.imp_right fun ⟨k, hk, hb⟩ => ?_
    obtain ⟨j, hj⟩ := List.getElem?_of_mem hk
    exact ⟨j, k, hj, hb⟩

/-- Only the root may be without cells. -/
theorem Within.kid_cells_ne_nil {k : PageTree} (hw : T.Within f top) (hk : k ∈ T.kids) :
    k.cells ≠ [] := by
  cases T with
  | leaf => cases hk
  | branch id kids => exact ((within_branch.mp hw).2 k hk).cells_ne_nil

/-- A separator is not the greatest key: those of the subtree behind it are greater. -/
theorem SeparatesAt.not_greatest? (hs : T.keys.Pairwise (· < ·)) (hw : b.Within f top)
    (hb : b ∈ T.nodes) (h : b.SeparatesAt i g) : T.greatest? ≠ some g := by
  intro hgreatest
  obtain ⟨hi, k, hk, hg⟩ := h
  have hnext := List.getElem?_eq_getElem hi
  have hmem := List.mem_of_getElem? hnext
  obtain ⟨g', hg'⟩ := Option.isSome_iff_exists.mp (greatest?_isSome (hw.kid_cells_ne_nil hmem))
  have hsub := keys_sublist_of_mem_nodes hb
  have hlt := lt_of_kids (hs.sublist hsub) hk hnext (Nat.lt_succ_self i) (greatest?_mem hg)
    (greatest?_mem hg')
  have hle := le_greatest? hs hgreatest
    (hsub.subset (keys_subset_of_kids hmem (greatest?_mem hg')))
  exact UInt32.lt_irrefl g (UInt32.lt_of_lt_of_le hlt hle)

/-- What separates subtrees does not separate any further down. -/
theorem SeparatesAt.not_below {j : Nat} {k : PageTree} (hs : T.keys.Pairwise (· < ·))
    (hw : b.Within f top) (hk : T.kids[j]? = some k) (hb : b ∈ k.nodes) (h : T.SeparatesAt i g) :
    ¬ b.SeparatesAt i' g := by
  intro h'
  obtain ⟨-, k', hk', hg⟩ := h
  have hsub := keys_sublist_of_mem_nodes hb
  obtain rfl := kid_unique hs hk' hk (greatest?_mem hg) (hsub.subset h'.mem_keys)
  obtain rfl := Option.some.inj (hk'.symm.trans hk)
  have hkeys := keys_sublist_of_mem_nodes (mem_nodes_of_kids (List.mem_of_getElem? hk))
  exact h'.not_greatest? (hs.sublist hkeys) hw hb hg

/-- **A key is a separator in one place at most.** -/
theorem SeparatesAt.unique (hs : T.keys.Pairwise (· < ·)) (hw : T.Within f top) (hb : b ∈ T.nodes)
    (hb' : b' ∈ T.nodes) (h : b.SeparatesAt i g) (h' : b'.SeparatesAt i' g) : b = b' ∧ i = i' := by
  induction T generalizing top with
  | leaf id cells =>
    rw [nodes_leaf, List.mem_singleton] at hb
    subst hb
    exact absurd h.1 (Nat.not_lt_zero _)
  | branch id kids ih =>
    have hwithin : ∀ {j : Nat} {k u : PageTree}, kids[j]? = some k → u ∈ k.nodes →
        u.Within f false := by
      intro j k u hk hu
      have hwk := (within_branch.mp hw).2 k (List.mem_of_getElem? hk)
      rcases hwk.of_mem_nodes hu with rfl | hwu
      · exact hwk
      · exact hwu
    rcases eq_or_exists_of_mem_nodes hb with rfl | ⟨j, k, hk, hbk⟩
    · rcases eq_or_exists_of_mem_nodes hb' with rfl | ⟨j', k', hk', hbk'⟩
      · obtain ⟨-, k, hk, hg⟩ := h
        obtain ⟨-, k', hk', hg'⟩ := h'
        exact ⟨rfl, kid_unique hs hk hk' (greatest?_mem hg) (greatest?_mem hg')⟩
      · exact absurd h' (h.not_below hs (hwithin hk' hbk') hk' hbk')
    · rcases eq_or_exists_of_mem_nodes hb' with rfl | ⟨j', k', hk', hbk'⟩
      · exact absurd h (h'.not_below hs (hwithin hk hbk) hk hbk)
      · have hmem := (keys_sublist_of_mem_nodes hbk).subset h.mem_keys
        have hmem' := (keys_sublist_of_mem_nodes hbk').subset h'.mem_keys
        obtain rfl := kid_unique hs hk hk' hmem hmem'
        obtain rfl := Option.some.inj (hk.symm.trans hk')
        have hkids := List.mem_of_getElem? hk
        have hsub := keys_sublist_of_mem_nodes (mem_nodes_of_mem_kids (i := id) hkids)
        exact ih k hkids (hs.sublist hsub) ((within_branch.mp hw).2 k hkids) hbk hbk'

/-- Of two nodes with the keys of one behind those of the other neither is all of a tree with
both. -/
theorem ne_of_mem_nodes (hs : T.keys.Pairwise (· < ·)) (hl : l ∈ T.nodes) (hr : r ∈ T.nodes)
    (hne : r.keys ≠ []) (hg : l.greatest? = some g) (hlt : ∀ key ∈ r.keys, g < key) :
    l ≠ T ∧ r ≠ T := by
  have hgl := greatest?_mem hg
  constructor
  · rintro rfl
    obtain ⟨first, hfirst⟩ := List.exists_mem_of_ne_nil _ hne
    have hle := le_greatest? hs hg ((keys_sublist_of_mem_nodes hr).subset hfirst)
    exact UInt32.lt_irrefl g (UInt32.lt_of_lt_of_le (hlt first hfirst) hle)
  · rintro rfl
    exact UInt32.lt_irrefl g (hlt g ((keys_sublist_of_mem_nodes hl).subset hgl))

/-- A subtree ends with the key `g` if the next key of the tree is in a later subtree. -/
theorem greatest?_of_next {j : Nat} {a c : PageTree} (hs : T.keys.Pairwise (· < ·))
    (ha : T.kids[i]? = some a) (hc : T.kids[j]? = some c) (hij : i < j) (hg : g ∈ a.keys)
    (hnext : ∀ key ∈ T.keys, key ≤ g ∨ ∃ first ∈ c.keys, first ≤ key) : a.greatest? = some g := by
  have hsub := keys_sublist_of_mem_nodes (mem_nodes_of_kids (List.mem_of_getElem? ha))
  have hcells : a.cells ≠ [] := fun hnil => by
    rw [keys, hnil] at hg
    cases hg
  obtain ⟨last, hlast⟩ := Option.isSome_iff_exists.mp (greatest?_isSome hcells)
  have hmem := greatest?_mem hlast
  rcases hnext last (hsub.subset hmem) with hle | ⟨first, hfirst, hle⟩
  · rw [hlast, UInt32.le_antisymm hle (le_greatest? (hs.sublist hsub) hlast hg)]
  · have hlt := lt_of_kids hs ha hc hij hmem hfirst
    exact absurd (UInt32.lt_of_lt_of_le hlt hle) (UInt32.lt_irrefl last)

/-- **Between two nodes there is a separator**, if no key of the tree is between those of the one
and those of the other. -/
theorem exists_parting (hs : T.keys.Pairwise (· < ·)) (hl : l ∈ T.nodes) (hr : r ∈ T.nodes)
    (hne : r.keys ≠ []) (hg : l.greatest? = some g) (hlt : ∀ key ∈ r.keys, g < key)
    (hnext : ∀ key ∈ T.keys, key ≤ g ∨ ∃ first ∈ r.keys, first ≤ key) :
    ∃ b ∈ T.nodes, ∃ i, b.SeparatesAt i g ∧ (∃ k ∈ b.kids, l ∈ k.nodes) ∧
      ∃ k ∈ b.kids, r ∈ k.nodes := by
  induction T with
  | leaf id cells =>
    exact absurd (by simpa using hl) (ne_of_mem_nodes hs hl hr hne hg hlt).1
  | branch id kids ih =>
    obtain ⟨hneL, hneR⟩ := ne_of_mem_nodes hs hl hr hne hg hlt
    obtain ⟨i, a, ha, hla⟩ := (eq_or_exists_of_mem_nodes hl).resolve_left hneL
    obtain ⟨j, c, hc, hrc⟩ := (eq_or_exists_of_mem_nodes hr).resolve_left hneR
    have hmem := List.mem_of_getElem? ha
    have hga := (keys_sublist_of_mem_nodes hla).subset (greatest?_mem hg)
    have hsub := (keys_sublist_of_mem_nodes hrc).subset
    rcases Nat.lt_trichotomy i j with hij | rfl | hij
    · have hlast := greatest?_of_next hs ha hc hij hga fun key hkey =>
        (hnext key hkey).imp_right fun ⟨first, hfirst, hle⟩ => ⟨first, hsub hfirst, hle⟩
      have hi := Nat.lt_of_le_of_lt hij (List.getElem?_eq_some_iff.mp hc).1
      exact ⟨_, self_mem_nodes _, i, ⟨hi, a, ha, hlast⟩, ⟨a, hmem, hla⟩,
        c, List.mem_of_getElem? hc, hrc⟩
    · obtain rfl := Option.some.inj (ha.symm.trans hc)
      have hkeys := keys_sublist_of_mem_nodes (mem_nodes_of_mem_kids (i := id) hmem)
      obtain ⟨b, hb, hparts⟩ := ih a hmem (hs.sublist hkeys) hla hrc
        fun key hkey => hnext key (hkeys.subset hkey)
      exact ⟨b, mem_nodes_trans hb (mem_nodes_of_mem_kids hmem), hparts⟩
    · obtain ⟨first, hfirst⟩ := List.exists_mem_of_ne_nil _ hne
      have hlt' := lt_of_kids hs hc ha hij (hsub hfirst) hga
      exact absurd (UInt32.lt_trans (hlt first hfirst) hlt') (UInt32.lt_irrefl g)

/-! ## Halves in the tree -/

/-- The page of a lower half in the tree: it is the page of the node that was split, unless a new
root stands there now. -/
def home (fresh : Nat) : List Crumb → PageId → PageId
  | [], _ => .ofIndex fresh
  | _ :: _, id => id

theorem moveTo_self (t : PageTree) : t.moveTo t.id = t := by
  cases t <;> rfl

theorem kids_moveTo (t : PageTree) (new : PageId) : (t.moveTo new).kids = t.kids := by
  cases t <;> rfl

theorem greatest?_moveTo (t : PageTree) (new : PageId) :
    (t.moveTo new).greatest? = t.greatest? := by
  rw [greatest?, greatest?, keys_moveTo]

/-- **Both halves are nodes of the tree with both.** -/
theorem mem_nodes_graft (cfg : Config) (fresh : Nat) (cs : List Crumb) (l r : PageTree) :
    l.moveTo (home fresh cs l.id) ∈ (graft cfg fresh cs l r).nodes ∧
      r ∈ (graft cfg fresh cs l r).nodes := by
  induction cs generalizing fresh l r with
  | nil => exact ⟨mem_nodes_of_mem_kids List.mem_cons_self, mem_nodes_of_mem_kids (by simp)⟩
  | cons c cs ih =>
    have hin : ∀ k ∈ [l, r], k ∈ c.before ++ [l, r] ++ c.after := fun k hk =>
      List.mem_append_left _ (List.mem_append_right _ hk)
    rw [graft, home, moveTo_self]
    split
    · have hplug := mem_nodes_plug cs (c.around [l, r])
      exact ⟨mem_nodes_trans (mem_nodes_of_mem_kids (hin l (by simp))) hplug,
        mem_nodes_trans (mem_nodes_of_mem_kids (hin r (by simp))) hplug⟩
    · generalize c.before ++ [l, r] ++ c.after = kids at hin
      -- Each half is below a half of the branch, and those are nodes of the tree.
      have hkid : ∀ k ∈ kids, k ∈ (graft cfg (fresh + 1) cs
          (.branch c.id (kids.take ((kids.length + 1) / 2)))
          (.branch (.ofIndex fresh) (kids.drop ((kids.length + 1) / 2)))).nodes := by
        intro k hk
        rw [← List.take_append_drop ((kids.length + 1) / 2) kids, List.mem_append] at hk
        obtain ⟨hlower, hupper⟩ := ih (fresh + 1)
          (.branch c.id (kids.take ((kids.length + 1) / 2)))
          (.branch (.ofIndex fresh) (kids.drop ((kids.length + 1) / 2)))
        rcases hk with hk | hk
        · exact mem_nodes_trans (mem_nodes_of_kids (by rwa [kids_moveTo])) hlower
        · exact mem_nodes_trans (mem_nodes_of_mem_kids hk) hupper
      exact ⟨hkid l (hin l (by simp)), hkid r (hin r (by simp))⟩

/-- **A separator parts the halves.** -/
theorem exists_parting_graft (hs : (graft cfg fresh cs l r).keys.Pairwise (· < ·))
    (hg : l.greatest? = some g) (hne : r.cells ≠ []) :
    ∃ b ∈ (graft cfg fresh cs l r).nodes, ∃ i, b.SeparatesAt i g ∧
      (∃ k ∈ b.kids, l.moveTo (home fresh cs l.id) ∈ k.nodes) ∧ ∃ k ∈ b.kids, r ∈ k.nodes := by
  obtain ⟨hl, hr⟩ := mem_nodes_graft cfg fresh cs l r
  have hkeys : (graft cfg fresh cs l r).keys =
      (leftCells cs).map Cell.key ++ (l.keys ++ r.keys) ++ (rightCells cs).map Cell.key := by
    rw [keys, cells_graft]
    simp only [List.map_append]
    rfl
  have hgl := greatest?_mem hg
  have hner : r.keys ≠ [] := by simpa [keys] using hne
  have hsorted := hs
  rw [hkeys, List.pairwise_append, List.pairwise_append, List.pairwise_append] at hsorted
  obtain ⟨⟨-, ⟨hsl, -, hlr⟩, hleft⟩, -, hright⟩ := hsorted
  refine exists_parting hs hl hr hner (by rwa [greatest?_moveTo])
    (fun key hkey => hlr g hgl key hkey) fun key hkey => ?_
  rw [hkeys, List.mem_append, List.mem_append, List.mem_append] at hkey
  rcases hkey with (hkey | hkey | hkey) | hkey
  · exact .inl (UInt32.le_of_lt (hleft key hkey g (List.mem_append_left _ hgl)))
  · exact .inl (le_greatest? hsl hg hkey)
  · exact .inr ⟨key, hkey, UInt32.le_refl key⟩
  · obtain ⟨first, hfirst⟩ := List.exists_mem_of_ne_nil _ hner
    have hlt := hright first (List.mem_append_right _ (List.mem_append_right _ hfirst)) key hkey
    exact .inr ⟨first, hfirst, UInt32.le_of_lt hlt⟩

end PageTree

/-! ## Page by page -/

namespace View

/-- Child pointers lead from `root` to node `id`, and its separator `i` is `g`. -/
def Separates (m : View) (root : PageId) (g : Key) (id : PageId) (i : Nat) : Prop :=
  m.Reaches root id ∧ ∃ p, m.node? id = some (.internal, p) ∧ p.separators[i]? = some g

/-- Of the nodes below `root` one has the separator `g`, and has it once. It stands above both
pages. -/
structure Parted (m : View) (root : PageId) (g : Key) (lower upper : PageId) : Prop where
  once : ∃! slot : PageId × Nat, m.Separates root g slot.1 slot.2
  above : ∀ id i, m.Separates root g id i →
    Relation.TransGen m.Child id lower ∧ Relation.TransGen m.Child id upper

/-- A separator of nodes above a node is not a separator of the node. -/
theorem Acyclic.separator_notMem {id : PageId} {p : Page} (h : m.Acyclic root)
    (hr : m.Reaches root id) (hn : m.node? id = some (.internal, p))
    (habove : ∀ id' i, m.Separates root g id' i → Relation.TransGen m.Child id' id) :
    g ∉ p.separators := by
  intro hg
  obtain ⟨i, hi⟩ := List.getElem?_of_mem hg
  exact h id hr (habove id i ⟨hr, p, hn, hi⟩)

end View

/-- The separators of a page are those of the subtrees. -/
theorem Held.separator_iff {up : Option PageId} {p : Page} (h : Held m root up b)
    (hp : m.node? b.id = some (.internal, p)) :
    p.separators[i]? = some g ↔ b.SeparatesAt i g := by
  obtain ⟨-, hs, -⟩ := h.kids_of_node hp
  have hi := congrArg (fun gs => gs[i]?) hs
  simp only [List.getElem?_map, List.getElem?_dropLast] at hi
  constructor
  · intro hg
    rw [hg, Option.map_some] at hi
    split at hi
    · obtain ⟨k, hk, hkg⟩ := Option.map_eq_some_iff.mp hi.symm
      exact ⟨by omega, k, hk, hkg⟩
    · cases hi
  · rintro ⟨hlt, k, hk, hkg⟩
    rw [if_pos (by omega), hk, Option.map_some, hkg] at hi
    obtain ⟨g', hg', heq⟩ := Option.map_eq_some_iff.mp hi
    rw [hg', Option.some.inj heq]

namespace Rooted

/-- Child pointers lead to all nodes of the tree. -/
theorem reaches_of_mem_nodes (h : Rooted m root f T) (hb : b ∈ T.nodes) :
    m.Reaches root b.id := by
  rw [← h.id_eq, h.held.unfolds.reaches_iff]
  exact List.mem_map_of_mem hb

/-- The separators of a tree, page by page. -/
theorem separates_iff {id : PageId} (h : Rooted m root f T) :
    m.Separates root g id i ↔ ∃ b ∈ T.nodes, b.id = id ∧ b.SeparatesAt i g := by
  constructor
  · rintro ⟨hr, p, hp, hg⟩
    obtain ⟨b, hb, rfl, _, hheld⟩ := h.exists_held hr
    exact ⟨b, hb, rfl, (hheld.separator_iff hp).mp hg⟩
  · rintro ⟨b, hb, rfl, hg⟩
    obtain ⟨_, hheld⟩ := h.held.of_mem_nodes hb
    refine ⟨h.reaches_of_mem_nodes hb, ?_⟩
    cases hheld with
    | leaf => exact absurd hg.1 (Nat.not_lt_zero _)
    | branch hn hp hc hs hk =>
      exact ⟨_, hn, ((Held.branch hn hp hc hs hk).separator_iff hn).mpr hg⟩

/-- Child pointers lead from a branch to the nodes of its subtrees. -/
theorem transGen_child {k : PageTree} (h : Rooted m root f T) (hb : b ∈ T.nodes) (hk : k ∈ b.kids)
    (hl : l ∈ k.nodes) : Relation.TransGen m.Child b.id l.id := by
  have hunf := h.held.unfolds.of_mem_nodes hb
  cases hunf with
  | leaf => cases hk
  | @branch id kids p hn hc hkids =>
    have hchild : m.Child id k.id := ⟨p, hn, hc ▸ List.mem_map_of_mem hk⟩
    exact .head' hchild ((hkids k hk).reaches_iff.mpr (List.mem_map_of_mem hl))

/-- **A separator of the tree parts the pages** of nodes of subtrees below it. -/
theorem parted {k k' : PageTree} (h : Rooted m root f T) (hb : b ∈ T.nodes)
    (hg : b.SeparatesAt i g) (hk : k ∈ b.kids) (hl : l ∈ k.nodes) (hk' : k' ∈ b.kids)
    (hr : r ∈ k'.nodes) : m.Parted root g l.id r.id := by
  have hunique : ∀ id j, m.Separates root g id j → id = b.id ∧ j = i := by
    intro id j hsep
    obtain ⟨b', hb', rfl, hg'⟩ := h.separates_iff.mp hsep
    obtain ⟨rfl, rfl⟩ := hg'.unique h.ordered h.within hb' hb hg
    exact ⟨rfl, rfl⟩
  constructor
  case once =>
    refine ⟨(b.id, i), h.separates_iff.mpr ⟨b, hb, rfl, hg⟩, fun slot hslot => ?_⟩
    exact Prod.ext_iff.mpr (hunique slot.1 slot.2 hslot)
  case above =>
    intro id j hsep
    rw [(hunique id j hsep).1]
    exact ⟨h.transGen_child hb hk hl, h.transGen_child hb hk' hr⟩

/-- **The greatest key of a lower half** parts the pages of the halves. -/
theorem parted_graft (h : Rooted m root f (graft cfg fresh cs l r)) (hg : l.greatest? = some g)
    (hne : r.cells ≠ []) : m.Parted root g (PageTree.home fresh cs l.id) r.id := by
  obtain ⟨b, hb, i, hsep, ⟨k, hk, hl⟩, k', hk', hr⟩ :=
    PageTree.exists_parting_graft h.ordered hg hne
  rw [← PageTree.id_moveTo l (PageTree.home fresh cs l.id)]
  exact h.parted hb hsep hk hl hk' hr

end Rooted

end PagedTable
