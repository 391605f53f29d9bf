import PagedTable.Proofs.PageTree.Reach
import PagedTable.Tree.Validate

/-!
# What a check of the tree means

`Tree.validate` passes bounds down and compares separators with greatest keys that come back up.

* `checkKeys_eq_ok_iff`: the check of a leaf.
* `Tree.Checked`: what the check of a subtree makes sure of. `checkNode_sound` has it of every
  subtree that passes.
* `Tree.Arranged`: the same apart from how full the nodes are. `checkNode_run` lets every such
  subtree pass, unless a node is not as full as it has to be.
* `validate_eq_ok_iff`: a check passes exactly if the pages unfold to a whole tree.
* `validate_cases`: a tree in order passes, or a node is not as full as it has to be.
-/

namespace PagedTable.Tree

open PagedTable.Action Pager

variable {t : Tree} {m : View} {s s' : Pager} {id : PageId} {up : Option PageId} {b : Bounds}
  {T : PageTree} {prev g : Option Key}

/-! ## Keys in order -/

/-- A key comes after all of a list of increasing keys if it comes after the last one. -/
theorem above_getLast? {keys : List Key} {key : Key} (hs : keys.Pairwise (· < ·)) :
    above keys.getLast? key = true ↔ ∀ k ∈ keys, k < key := by
  rcases List.eq_nil_or_concat keys with rfl | ⟨init, last, rfl⟩
  · simp [above]
  rw [List.concat_eq_append] at hs ⊢
  rw [List.getLast?_concat, above, Option.all_some, decide_eq_true_iff]
  constructor
  · intro hlt k hk
    rcases List.mem_append.mp hk with hk | hk
    · exact UInt32.lt_trans ((List.pairwise_append.mp hs).2.2 k hk last List.mem_cons_self) hlt
    · rwa [List.mem_singleton.mp hk]
  · intro h
    exact h last (List.mem_append_right _ List.mem_cons_self)

theorem above_iff {key : Key} : above prev key = true ↔ ∀ k ∈ prev.toList, k < key := by
  cases prev <;> simp [above]

/-- A key put between a last key and those that come after it. -/
theorem pairwise_toList_append {key : Key} {keys : List Key} :
    (prev.toList ++ key :: keys).Pairwise (· < ·) ↔
      above prev key = true ∧ (key :: keys).Pairwise (· < ·) := by
  rw [List.pairwise_append, above_iff]
  constructor
  · rintro ⟨-, hs, hlt⟩
    exact ⟨fun k hk => hlt k hk key List.mem_cons_self, hs⟩
  · rintro ⟨hlt, hs⟩
    refine ⟨by cases prev <;> simp, hs, fun k hk k' hk' => ?_⟩
    rcases List.mem_cons.mp hk' with rfl | hk'
    · exact hlt k hk
    · exact UInt32.lt_trans (hlt k hk) (List.rel_of_pairwise_cons hs hk')

/-- Two runs of keys are in order if the second begins above the last key of the first. -/
theorem pairwise_append_iff {keys rest : List Key} {key : Key} (hlast : keys.getLast? = some key) :
    (prev.toList ++ (keys ++ rest)).Pairwise (· < ·) ↔
      (prev.toList ++ keys).Pairwise (· < ·) ∧ ((some key).toList ++ rest).Pairwise (· < ·) := by
  obtain ⟨init, rfl⟩ := List.getLast?_eq_some_iff.mp hlast
  have hl : prev.toList ++ (init ++ [key] ++ rest) = (prev.toList ++ init) ++ key :: rest := by simp
  have hr : prev.toList ++ (init ++ [key]) = (prev.toList ++ init) ++ [key] := by simp
  generalize prev.toList ++ init = before at hl hr
  rw [hl, hr, List.pairwise_append, List.pairwise_append]
  constructor
  · rintro ⟨h₁, h₂, hlt⟩
    refine ⟨⟨h₁, List.pairwise_singleton _ _, fun k hk k' hk' => ?_⟩, h₂⟩
    rw [List.mem_singleton.mp hk']
    exact hlt k hk key List.mem_cons_self
  · rintro ⟨⟨h₁, -, hlt⟩, h₂⟩
    refine ⟨h₁, h₂, fun k hk k' hk' => ?_⟩
    have hkey := hlt k hk key List.mem_cons_self
    rcases List.mem_cons.mp hk' with rfl | hk'
    · exact hkey
    · exact UInt32.lt_trans hkey (List.rel_of_pairwise_cons h₂ hk')

theorem getLast?_append_of_last {keys rest : List Key} {key : Key}
    (hlast : keys.getLast? = some key) :
    (prev.toList ++ (keys ++ rest)).getLast? = ((some key).toList ++ rest).getLast? := by
  rw [List.getLast?_append, List.getLast?_append, hlast, List.getLast?_append]
  cases rest.getLast? <;> rfl

/-- **The check of a leaf** passes if the keys come after `prev` in order and within the bounds. -/
theorem checkKeys_eq_ok_iff {keys : List Key} :
    checkKeys id b prev keys s = (.ok g, s') ↔
      (prev.toList ++ keys).Pairwise (· < ·) ∧ (∀ k ∈ keys, b.admits k = true) ∧
        g = (prev.toList ++ keys).getLast? ∧ s' = s := by
  induction keys generalizing prev with
  | nil =>
    have hlast : (prev.toList ++ []).getLast? = prev := by cases prev <;> rfl
    have hsorted : (prev.toList ++ []).Pairwise (· < ·) := by cases prev <;> simp
    rw [checkKeys, pure_apply, Prod.mk.injEq, Except.ok.injEq, hlast]
    refine ⟨fun h => ⟨hsorted, fun _ hk => absurd hk List.not_mem_nil, h.1.symm, h.2.symm⟩, ?_⟩
    rintro ⟨-, -, rfl, rfl⟩
    exact ⟨rfl, rfl⟩
  | cons key keys ih =>
    have hlast : (prev.toList ++ key :: keys).getLast? =
        ((some key).toList ++ keys).getLast? := by
      rw [List.getLast?_append_of_ne_nil _ (List.cons_ne_nil _ _)]
      rfl
    rw [checkKeys, pairwise_toList_append, hlast, List.forall_mem_cons]
    by_cases habove : above prev key = true
    · by_cases hadmits : b.admits key = true
      · rw [habove, hadmits, if_neg (by decide), if_neg (by decide), ih]
        simp only [true_and]
        rfl
      · rw [habove, Bool.eq_false_of_not_eq_true hadmits, if_neg (by decide), if_pos (by decide)]
        simp [corrupt]
    · rw [Bool.eq_false_of_not_eq_true habove, if_pos (by decide)]
      simp [corrupt]

/-! ## Subtrees -/

/-- What the check of a subtree makes sure of. -/
structure Checked (t : Tree) (m : View) (up : Option PageId) (b : Bounds) (T : PageTree) :
    Prop where
  held : Held m t.root up T
  fits : ∀ u ∈ T.nodes, u.Fits t.config.fill (decide (u.id = t.root))
  ordered : T.keys.Pairwise (· < ·)
  admitted : ∀ key ∈ T.keys, b.admits key = true

/-- All that the check of a subtree makes sure of apart from how full the nodes are. -/
structure Arranged (t : Tree) (m : View) (up : Option PageId) (b : Bounds) (T : PageTree) :
    Prop where
  held : Held m t.root up T
  ordered : T.keys.Pairwise (· < ·)
  admitted : ∀ key ∈ T.keys, b.admits key = true

/-- The node at the top is as full as the configuration asks. -/
abbrev Filled (t : Tree) (T : PageTree) : Prop := T.Fits t.config.fill (decide (T.id = t.root))

theorem admits_iff {key : Key} :
    b.admits key = true ↔ above b.lower key = true ∧ b.upper.all (key ≤ ·) = true := by
  rw [Bounds.admits, Bool.and_eq_true]

/-- A branch of subtrees that were checked, with their keys in order from the lower bound on. -/
theorem Checked.branch {p : Page} {kids : List PageTree} (hn : m.node? id = some (.internal, p))
    (hplaced : p.Placed t.root up id)
    (hfits : (PageTree.branch id kids).Fits t.config.fill (decide (id = t.root)))
    (hc : p.children = kids.map PageTree.id)
    (hs : p.separators.map some = kids.dropLast.map PageTree.greatest?)
    (hkids : ∀ k ∈ kids, ∃ b', t.Checked m (some id) b' k)
    (hordered : (b.lower.toList ++ kids.flatMap PageTree.keys).Pairwise (· < ·))
    (hupper : ∀ key ∈ kids.flatMap PageTree.keys, b.upper.all (key ≤ ·) = true) :
    t.Checked m up b (.branch id kids) := by
  obtain ⟨-, hsorted, hlower⟩ := List.pairwise_append.mp hordered
  constructor
  case held =>
    refine .branch hn hplaced hc hs fun k hk => ?_
    obtain ⟨b', h⟩ := hkids k hk
    exact h.held
  case fits =>
    intro u hu
    rw [PageTree.nodes_branch, List.mem_cons, List.mem_flatMap] at hu
    rcases hu with rfl | ⟨k, hk, hu⟩
    · exact hfits
    · obtain ⟨b', h⟩ := hkids k hk
      exact h.fits u hu
  case ordered => rwa [PageTree.keys_branch]
  case admitted =>
    intro key hkey
    rw [PageTree.keys_branch] at hkey
    exact admits_iff.mpr ⟨above_iff.mpr fun a ha => hlower a ha key hkey, hupper key hkey⟩

theorem Checked.arranged (h : t.Checked m up b T) : t.Arranged m up b T :=
  ⟨h.held, h.ordered, h.admitted⟩

theorem Arranged.of_mem_kids {kids : List PageTree} (h : t.Arranged m up b (.branch id kids))
    {k : PageTree} (hk : k ∈ kids) : t.Arranged m (some id) b k := by
  have hsub := PageTree.keys_sublist_of_mem_nodes (PageTree.mem_nodes_of_mem_kids (i := id) hk)
  constructor
  case held =>
    cases h.held with
    | branch _ _ _ _ hheld => exact hheld k hk
  case ordered => exact h.ordered.sublist hsub
  case admitted => exact fun key hkey => h.admitted key (hsub.subset hkey)

/-- The keys of a subtree that is in order come after its lower bound. -/
theorem Arranged.pairwise (h : t.Arranged m up b T) :
    (b.lower.toList ++ T.keys).Pairwise (· < ·) := by
  refine List.pairwise_append.mpr ⟨by cases b.lower <;> simp, h.ordered, fun a ha key hkey => ?_⟩
  exact above_iff.mp (admits_iff.mp (h.admitted key hkey)).1 a ha

/-- The last subtree is in order from the greatest key of the others on. -/
theorem Arranged.last {init : List PageTree} {r : PageTree}
    (h : t.Arranged m up b (.branch id (init ++ [r]))) :
    (b.lower.toList ++ init.flatMap PageTree.keys).Pairwise (· < ·) ∧
      t.Arranged m (some id)
        { lower := (b.lower.toList ++ init.flatMap PageTree.keys).getLast?,
          upper := b.upper } r := by
  have hsorted := h.pairwise
  rw [PageTree.keys_branch, List.flatMap_append, List.flatMap_singleton, ← List.append_assoc,
    List.pairwise_append] at hsorted
  obtain ⟨hsorted, -, hlt⟩ := hsorted
  have hr := h.of_mem_kids (List.mem_append_right _ List.mem_cons_self)
  refine ⟨hsorted, { hr with admitted := fun key hkey => admits_iff.mpr ⟨?_, ?_⟩ }⟩
  · exact (above_getLast? hsorted).mpr fun a ha => hlt a ha key hkey
  · exact (admits_iff.mp (hr.admitted key hkey)).2

/-- Subtrees that were checked from left to right. -/
theorem checkLinks_sound {check : PageId → Bounds → Action Pager (Option Key)}
    (hcheck : ∀ {s s' c b g}, s.view = m → check c b s = (.ok g, s') →
      s.Seen s' ∧ ∃ k : PageTree, k.id = c ∧ k.greatest? = g ∧ t.Checked m up b k)
    {i : Nat} {links : List (Key × PageId)} (hm : s.view = m)
    (h : checkLinks check id b i prev links s = (.ok g, s')) :
    s.Seen s' ∧ ∃ kids : List PageTree, links.map Prod.snd = kids.map PageTree.id ∧
      links.map (fun l => some l.1) = kids.map PageTree.greatest? ∧
      (∀ k ∈ kids, ∃ b', t.Checked m up b' k) ∧
      (prev.toList ++ kids.flatMap PageTree.keys).Pairwise (· < ·) ∧
      (∀ key ∈ kids.flatMap PageTree.keys, b.upper.all (key ≤ ·) = true) ∧
      g = (prev.toList ++ kids.flatMap PageTree.keys).getLast? := by
  induction links generalizing i prev s with
  | nil =>
    rw [checkLinks, pure_apply, Prod.mk.injEq, Except.ok.injEq] at h
    obtain ⟨rfl, rfl⟩ := h
    exact ⟨.refl _, [], rfl, rfl, by simp, by cases prev <;> simp, by simp,
      by cases prev <;> simp⟩
  | cons l links ih =>
    obtain ⟨key, child⟩ := l
    rw [checkLinks] at h
    split at h
    · simp [corrupt] at h
    rename_i hkey
    obtain ⟨g', s₁, hrun, h⟩ := bind_eq_ok h
    obtain ⟨hseen, k, rfl, rfl, hk⟩ := hcheck hm hrun
    split at h
    · simp [corrupt] at h
    rename_i hg
    have hg : k.greatest? = some key := not_not.mp hg
    rw [Bool.or_eq_true, Bool.not_eq_true', Bool.not_eq_true', not_or, Bool.not_eq_false,
      Bool.not_eq_false, admits_iff] at hkey
    obtain ⟨hseen', kids, hids, hgs, hkids, hsorted, hupper, hlast⟩ :=
      ih (by rw [hseen.view, hm]) h
    have hbelow : ∀ key' ∈ k.keys, above prev key' = true ∧ key' ≤ key := by
      intro key' hmem
      have hadmits := admits_iff.mp (hk.admitted key' hmem)
      rwa [Option.all_some, decide_eq_true_iff] at hadmits
    refine ⟨hseen.trans hseen', k :: kids, by simp [hids], by simp [hgs, hg], ?_, ?_, ?_, ?_⟩
    · exact List.forall_mem_cons.mpr ⟨⟨_, hk⟩, hkids⟩
    · rw [List.flatMap_cons, pairwise_append_iff hg]
      exact ⟨hk.arranged.pairwise, hsorted⟩
    · intro key' hmem
      rcases List.mem_append.mp (List.flatMap_cons ▸ hmem) with hmem | hmem
      · have hle := (hbelow key' hmem).2
        have hub := hkey.2.2
        cases hb : b.upper with
        | none => rfl
        | some u =>
          rw [hb, Option.all_some, decide_eq_true_iff] at hub
          exact decide_eq_true (UInt32.le_trans hle hub)
      · exact hupper key' hmem
    · rw [hlast, List.flatMap_cons, getLast?_append_of_last hg]

/-- The refusal is for a node with too many or too few cells or keys. -/
def Misfilled (e : Fault) : Prop :=
  ∃ id flaw, e = .refused (.treeCorrupted (.page id flaw)) ∧
    ((∃ n, flaw = .leafOverfull n) ∨ (∃ n, flaw = .leafUnderfull n) ∨
      (∃ n, flaw = .internalOverfull n) ∨ ∃ n, flaw = .internalUnderfull n)

/-- The check comes to `g`, unless a node of the subtrees `kids` is not as full as it has to be. -/
def Passes (t : Tree) (kids : List PageTree) (r : Except Fault (Option Key)) (g : Option Key) :
    Prop :=
  r = .ok g ∨ (∃ k ∈ kids, ∃ u ∈ k.nodes, ¬ t.Filled u) ∧ ∃ e, Misfilled e ∧ r = .error e

/-- Subtrees in order, each with its greatest key as its separator, pass from left to right, up to
the first that does not. -/
theorem checkLinks_run {check : PageId → Bounds → Action Pager (Option Key)} {i : Nat}
    {kids : List PageTree} {links : List (Key × PageId)}
    (hcheck : ∀ {s : Pager} {b} {k}, s.view = m → k ∈ kids → t.Arranged m up b k →
      ∃ r s', s.Seen s' ∧ check k.id b s = (r, s') ∧ t.Passes [k] r k.greatest?)
    (hm : s.view = m) (hids : links.map Prod.snd = kids.map PageTree.id)
    (hgs : links.map (fun l => some l.1) = kids.map PageTree.greatest?)
    (hkids : ∀ k ∈ kids, ∃ b', t.Arranged m up b' k)
    (hsorted : (prev.toList ++ kids.flatMap PageTree.keys).Pairwise (· < ·))
    (hadmits : ∀ key ∈ kids.flatMap PageTree.keys, b.admits key = true) :
    ∃ r s', s.Seen s' ∧ checkLinks check id b i prev links s = (r, s') ∧
      t.Passes kids r (prev.toList ++ kids.flatMap PageTree.keys).getLast? := by
  induction kids generalizing i prev links s with
  | nil =>
    obtain rfl : links = [] := List.map_eq_nil_iff.mp hids
    refine ⟨.ok prev, s, .refl s, ?_, .inl ?_⟩
    · rw [checkLinks, pure_apply]
    · cases prev <;> rfl
  | cons k kids ih =>
    rcases links with _ | ⟨⟨key, child⟩, links⟩
    · cases hids
    rw [List.map_cons, List.map_cons, List.cons.injEq] at hids hgs
    obtain ⟨hchild, hids⟩ := hids
    obtain rfl : child = k.id := hchild
    obtain ⟨hg, hgs⟩ := hgs
    have hg : k.keys.getLast? = some key := hg.symm
    rw [List.flatMap_cons] at hsorted hadmits
    rw [pairwise_append_iff hg] at hsorted
    obtain ⟨b', hk⟩ := hkids k List.mem_cons_self
    have hmem : key ∈ k.keys := List.mem_of_getLast? hg
    have habove : ∀ key' ∈ k.keys, above prev key' = true := fun key' hmem' =>
      above_iff.mpr fun a ha => (List.pairwise_append.mp hsorted.1).2.2 a ha key' hmem'
    have hle : ∀ key' ∈ k.keys, key' ≤ key := fun _ hmem' =>
      PageTree.le_greatest? hk.ordered hg hmem'
    have harranged : t.Arranged m up { lower := prev, upper := some key } k :=
      { hk with
        admitted := fun key' hmem' =>
          admits_iff.mpr ⟨habove key' hmem', decide_eq_true (hle key' hmem')⟩ }
    have hpass : ¬ ((!above prev key || !b.admits key) = true) := by
      rw [habove key hmem, hadmits key (List.mem_append_left _ hmem)]
      decide
    rw [checkLinks, if_neg hpass]
    obtain ⟨r, s₁, hseen, hrun, rfl | ⟨hunfit, e, he, rfl⟩⟩ :=
      hcheck hm List.mem_cons_self harranged
    · obtain ⟨r', s₂, hseen', hrest, hr'⟩ := ih (i := i + 1)
        (fun hm hk => hcheck hm (List.mem_cons_of_mem _ hk))
        (by rw [hseen.view, hm]) hids hgs (fun k hk => hkids k (List.mem_cons_of_mem _ hk))
        hsorted.2 fun key' hmem' => hadmits key' (List.mem_append_right _ hmem')
      have hgreatest : ¬ k.greatest? ≠ some key := not_not.mpr hg
      refine ⟨r', s₂, hseen.trans hseen', ?_, ?_⟩
      · rw [bind_ok hrun, if_neg hgreatest, hrest]
      · rw [List.flatMap_cons, getLast?_append_of_last hg]
        rcases hr' with hok | ⟨⟨k', hk', hu⟩, he⟩
        · exact .inl hok
        · exact .inr ⟨⟨k', List.mem_cons_of_mem _ hk', hu⟩, he⟩
    · obtain ⟨k', hk', hu⟩ := hunfit
      obtain rfl := List.mem_singleton.mp hk'
      exact ⟨_, s₁, hseen, bind_error hrun, .inr ⟨⟨k', List.mem_cons_self, hu⟩, e, he, rfl⟩⟩

/-! ## Nodes -/

theorem placed_iff {root : PageId} {p : Page} :
    p.Placed root up id ↔
      (p.isRoot != (id == root)) = false ∧ up.any (· ≠ p.parent) = false := by
  rw [bne_eq_false_iff_eq, beq_eq_decide]
  constructor
  · intro h
    refine ⟨h.isRoot, ?_⟩
    cases hup : up with
    | none => rfl
    | some q => simp [h.parent hup]
  · rintro ⟨hroot, hparent⟩
    refine ⟨hroot, ?_⟩
    rintro q rfl
    rw [Option.any_some, decide_eq_false_iff_not, not_not] at hparent
    exact hparent.symm

theorem leaf_fits_iff {p : Page} :
    (PageTree.leaf id p.cells).Fits t.config.fill (decide (id = t.root)) ↔
      ¬ t.config.leafMax < p.count ∧
        ¬ ((!(id == t.root) && p.count < t.config.leafMin) = true) := by
  rw [PageTree.Fits, Page.length_cells, beq_eq_decide]
  by_cases h : id = t.root <;> simp [h, Config.fill, and_comm]

/-- A branch with one child more than the page has keys. -/
theorem branch_fits_iff {p : Page} {kids : List PageTree} (hlen : p.count + 1 = kids.length) :
    (PageTree.branch id kids).Fits t.config.fill (decide (id = t.root)) ↔
      ¬ t.config.internalMax < p.count ∧
        ¬ p.count < (if (id == t.root) = true then 1 else t.config.internalMin) := by
  rw [PageTree.Fits, ← hlen, Config.kids_fit_iff, beq_eq_decide]
  omega

/-- **What the check of a node asks** of its page, and of the pages below it. -/
theorem checkNode_cases {fuel : Nat} (h : checkNode t (fuel + 1) up id b s = (.ok g, s')) :
    ∃ kind p, s.view.node? id = some (kind, p) ∧ p.Placed t.root up id ∧
      ((kind = .leaf ∧ (PageTree.leaf id p.cells).Fits t.config.fill (decide (id = t.root)) ∧
          checkKeys id b none p.cellKeys (s.fetched id) = (.ok g, s')) ∨
        (kind = .internal ∧ ¬ t.config.internalMax < p.count ∧
          ¬ p.count < (if (id == t.root) = true then 1 else t.config.internalMin) ∧
          ∃ last s₁, checkLinks (checkNode t fuel (some id)) id b 0 b.lower
              (p.separators.zip p.children) (s.fetched id) = (.ok last, s₁) ∧
            checkNode t fuel (some id) p.rightChild { lower := last, upper := b.upper } s₁ =
              (.ok g, s') ∧ g ≠ none)) := by
  rw [checkNode] at h
  obtain ⟨⟨kind, p⟩, s₁, hnode, h⟩ := bind_eq_ok h
  obtain ⟨hn, rfl⟩ := node?_of_node hnode
  dsimp only at h
  split at h
  · simp [corrupt] at h
  rename_i hroot
  split at h
  · simp [corrupt] at h
  rename_i hparent
  refine ⟨kind, p, hn, placed_iff.mpr
    ⟨Bool.eq_false_of_not_eq_true hroot, Bool.eq_false_of_not_eq_true hparent⟩, ?_⟩
  cases kind with
  | leaf =>
    dsimp only at h
    split at h
    · simp [corrupt] at h
    rename_i hover
    split at h
    · simp [corrupt] at h
    rename_i hunder
    rw [Page.cellKeys?_eq (View.count_le hn), bind_ok (need_some_apply _ _)] at h
    exact .inl ⟨rfl, leaf_fits_iff.mpr ⟨hover, hunder⟩, h⟩
  | internal =>
    dsimp only at h
    by_cases hover : t.config.internalMax < p.count
    · rw [if_pos hover] at h
      simp [corrupt] at h
    by_cases hunder : p.count < (if (id == t.root) = true then 1 else t.config.internalMin)
    · rw [if_neg hover, if_pos hunder] at h
      simp [corrupt] at h
    rw [if_neg hover, if_neg hunder, Page.separators?_eq (View.count_le hn),
      bind_ok (need_some_apply _ _), Page.children?_eq (View.count_le hn),
      bind_ok (need_some_apply _ _)] at h
    obtain ⟨last, s₂, hlinks, h⟩ := bind_eq_ok h
    obtain ⟨greatest, s₃, hright, h⟩ := bind_eq_ok h
    split at h
    · simp [corrupt] at h
    rename_i hsome
    rw [pure_apply, Prod.mk.injEq, Except.ok.injEq] at h
    obtain ⟨rfl, rfl⟩ := h
    exact .inr ⟨rfl, hover, hunder, last, s₂, hlinks, hright,
      fun hnone => hsome (by rw [hnone]; rfl)⟩

/-- A leaf that is full enough passes if its keys do. -/
theorem checkNode_leaf (fuel : Nat) {p : Page} (hn : s.view.node? id = some (.leaf, p))
    (hplaced : p.Placed t.root up id) :
    (t.Filled (.leaf id p.cells) ∧
      checkNode t (fuel + 1) up id b s = checkKeys id b none p.cellKeys (s.fetched id)) ∨
    (¬ t.Filled (.leaf id p.cells) ∧ ∃ e, Misfilled e ∧
      checkNode t (fuel + 1) up id b s = (.error e, s.fetched id)) := by
  obtain ⟨hroot, hparent⟩ := placed_iff.mp hplaced
  rw [Filled, PageTree.id_leaf, leaf_fits_iff, checkNode, bind_ok (node_run hn)]
  dsimp only
  rw [hroot, hparent, if_neg Bool.false_ne_true, if_neg Bool.false_ne_true]
  by_cases hover : t.config.leafMax < p.count
  · rw [if_pos hover]
    exact .inr ⟨fun h => h.1 hover, _, ⟨id, _, rfl, .inl ⟨_, rfl⟩⟩, rfl⟩
  rw [if_neg hover]
  by_cases hunder : (!(id == t.root) && p.count < t.config.leafMin) = true
  · rw [if_pos hunder]
    exact .inr ⟨fun h => h.2 hunder, _, ⟨id, _, rfl, .inr (.inl ⟨_, rfl⟩)⟩, rfl⟩
  rw [if_neg hunder, Page.cellKeys?_eq (View.count_le hn), bind_ok (need_some_apply _ _)]
  exact .inl ⟨⟨hover, hunder⟩, rfl⟩

/-- A branch that is full enough passes if its subtrees do, the last of which has no separator. -/
theorem checkNode_branch (fuel : Nat) {p : Page} {kids : List PageTree}
    (hn : s.view.node? id = some (.internal, p)) (hplaced : p.Placed t.root up id)
    (hlen : p.count + 1 = kids.length) :
    (t.Filled (.branch id kids) ∧ checkNode t (fuel + 1) up id b s = (do
      let last ← checkLinks (checkNode t fuel (some id)) id b 0 b.lower
        (p.separators.zip p.children)
      let greatest ← checkNode t fuel (some id) p.rightChild { lower := last, upper := b.upper }
      if greatest.isNone then corrupt id (.rightEmpty p.rightChild) else return greatest)
        (s.fetched id)) ∨
    (¬ t.Filled (.branch id kids) ∧ ∃ e, Misfilled e ∧
      checkNode t (fuel + 1) up id b s = (.error e, s.fetched id)) := by
  obtain ⟨hroot, hparent⟩ := placed_iff.mp hplaced
  rw [Filled, PageTree.id_branch, branch_fits_iff hlen, checkNode, bind_ok (node_run hn)]
  dsimp only
  rw [hroot, hparent, if_neg Bool.false_ne_true, if_neg Bool.false_ne_true]
  by_cases hover : t.config.internalMax < p.count
  · rw [if_pos hover]
    exact .inr ⟨fun h => h.1 hover, _, ⟨id, _, rfl, .inr (.inr (.inl ⟨_, rfl⟩))⟩, rfl⟩
  rw [if_neg hover]
  by_cases hunder : p.count < (if (id == t.root) = true then 1 else t.config.internalMin)
  · rw [if_pos hunder]
    exact .inr ⟨fun h => h.2 hunder, _, ⟨id, _, rfl, .inr (.inr (.inr ⟨_, rfl⟩))⟩, rfl⟩
  rw [if_neg hunder, Page.separators?_eq (View.count_le hn), bind_ok (need_some_apply _ _),
    Page.children?_eq (View.count_le hn), bind_ok (need_some_apply _ _)]
  exact .inl ⟨⟨hover, hunder⟩, rfl⟩

/-- **Only whole subtrees pass.** -/
theorem checkNode_sound {fuel : Nat} (hm : s.view = m)
    (h : checkNode t fuel up id b s = (.ok g, s')) :
    s.Seen s' ∧ ∃ T : PageTree, T.id = id ∧ T.greatest? = g ∧ t.Checked m up b T := by
  induction fuel generalizing up id b s s' g with
  | zero => simp [checkNode] at h
  | succ fuel ih =>
    obtain ⟨kind, p, hn, hplaced, ⟨rfl, hfits, h⟩ | ⟨rfl, hover, hunder, last, s₁, hlinks, hright,
      hg⟩⟩ := checkNode_cases h
    · have hseen := Seen.node hn
      rw [hm] at hn
      obtain ⟨hsorted, hadmits, rfl, rfl⟩ := checkKeys_eq_ok_iff.mp h
      have hkeys : (PageTree.leaf id p.cells).keys = p.cellKeys := by
        rw [PageTree.keys_leaf, Page.map_key_cells]
      refine ⟨hseen, .leaf id p.cells, rfl, congrArg List.getLast? hkeys, ?_⟩
      constructor
      case held => exact .leaf hn hplaced rfl
      case fits =>
        intro u hu
        rw [PageTree.nodes_leaf, List.mem_singleton] at hu
        rwa [hu, PageTree.id_leaf]
      case ordered => rwa [hkeys]
      case admitted => rwa [hkeys]
    · have hseen := Seen.node hn
      rw [hm] at hn
      obtain ⟨hseen₁, kids, hids, hgs, hkids, hsorted, hupper, rfl⟩ :=
        checkLinks_sound (fun hm h => ih hm h) (by rw [hseen.view, hm]) hlinks
      obtain ⟨hseen₂, r, hid, rfl, hr⟩ := ih (by rw [hseen₁.view, hseen.view, hm]) hright
      rw [Page.zip_separators_children, List.map_map] at hids hgs
      have hchildren : p.children = (kids ++ [r]).map PageTree.id := by
        rw [Page.children_eq, List.map_append, ← hids, List.map_singleton, hid]
        rfl
      have hseps : p.separators.map some = (kids ++ [r]).dropLast.map PageTree.greatest? := by
        rw [List.dropLast_concat, ← hgs, ← Page.map_key_links, List.map_map]
        rfl
      have hlen := Page.count_of_children hchildren
      -- Only now are the keys of `r` known to lie above all others.
      have hordered : (b.lower.toList ++ (kids ++ [r]).flatMap PageTree.keys).Pairwise (· < ·) := by
        rw [List.flatMap_append, List.flatMap_singleton, ← List.append_assoc, List.pairwise_append]
        refine ⟨hsorted, hr.ordered, fun a ha key hkey => ?_⟩
        exact (above_getLast? hsorted).mp (admits_iff.mp (hr.admitted key hkey)).1 a ha
      refine ⟨(hseen.trans hseen₁).trans hseen₂, .branch id (kids ++ [r]), rfl, ?_, ?_⟩
      · refine PageTree.greatest?_branch id kids fun hnil => hg ?_
        rw [PageTree.greatest?, PageTree.keys, hnil]
        rfl
      · refine .branch hn hplaced ((branch_fits_iff hlen).mpr ⟨hover, hunder⟩) hchildren hseps ?_
          hordered ?_
        · intro k hk
          rcases List.mem_append.mp hk with hk | hk
          · exact hkids k hk
          · rw [List.mem_singleton.mp hk]
            exact ⟨_, hr⟩
        · intro key hkey
          rw [List.flatMap_append, List.flatMap_singleton] at hkey
          rcases List.mem_append.mp hkey with hkey | hkey
          · exact hupper key hkey
          · exact (admits_iff.mp (hr.admitted key hkey)).2

/-- A leaf in order passes if it is as full as it has to be. -/
theorem checkNode_leaf_run (fuel : Nat) {cells : List Cell} (hm : s.view = m)
    (h : t.Arranged m up b (.leaf id cells)) :
    ∃ r s', s.Seen s' ∧ checkNode t (fuel + 1) up id b s = (r, s') ∧
      t.Passes [.leaf id cells] r (PageTree.leaf id cells).greatest? := by
  cases h.held with
  | @leaf _ _ _ p hn hplaced hc =>
    subst hc
    rw [← hm] at hn
    rcases checkNode_leaf fuel (b := b) hn hplaced with ⟨-, hrun⟩ | ⟨hunfit, e, he, hrun⟩
    · have hordered := h.ordered
      have hadmitted := h.admitted
      rw [PageTree.keys_leaf, Page.map_key_cells] at hordered hadmitted
      refine ⟨_, s.fetched id, .node hn, ?_, .inl rfl⟩
      rw [hrun, checkKeys_eq_ok_iff]
      refine ⟨hordered, hadmitted, ?_, rfl⟩
      rw [PageTree.greatest?, PageTree.keys_leaf, Page.map_key_cells]
      rfl
    · exact ⟨_, _, .node hn, hrun,
        .inr ⟨⟨_, List.mem_cons_self, _, PageTree.self_mem_nodes _, hunfit⟩, e, he, rfl⟩⟩

/-- A branch in order passes if it is as full as it has to be and its subtrees pass. The last of
them must not be empty. -/
theorem checkNode_branch_run {fuel : Nat} {kids : List PageTree} (hm : s.view = m)
    (h : t.Arranged m up b (.branch id kids)) (hcells : ∀ k ∈ kids, k.cells ≠ [])
    (hcheck : ∀ {s : Pager} {b} {k}, s.view = m → k ∈ kids → t.Arranged m (some id) b k →
      ∃ r s', s.Seen s' ∧ checkNode t fuel (some id) k.id b s = (r, s') ∧
        t.Passes [k] r k.greatest?) :
    ∃ r s', s.Seen s' ∧ checkNode t (fuel + 1) up id b s = (r, s') ∧
      t.Passes [.branch id kids] r (PageTree.branch id kids).greatest? := by
  cases h.held with
  | @branch _ _ _ p hn hplaced hc hs =>
    rw [← hm] at hn
    rcases checkNode_branch fuel (b := b) hn hplaced (Page.count_of_children hc) with
      ⟨-, hrun⟩ | ⟨hunfit, e, he, hrun⟩
    case inr =>
      exact ⟨_, _, .node hn, hrun,
        .inr ⟨⟨_, List.mem_cons_self, _, PageTree.self_mem_nodes _, hunfit⟩, e, he, rfl⟩⟩
    obtain ⟨init, r, rfl, hr, hids, hgs⟩ := Page.exists_last hc hs
    have hrmem : r ∈ init ++ [r] := List.mem_append_right _ List.mem_cons_self
    obtain ⟨hsorted, hrarranged⟩ := h.last
    -- A node below that is not as full as it has to be is a node of the whole.
    have hbelow : ∀ {kids'}, kids' ⊆ init ++ [r] → (∃ k ∈ kids', ∃ u ∈ k.nodes, ¬ t.Filled u) →
        ∃ k ∈ [PageTree.branch id (init ++ [r])], ∃ u ∈ k.nodes, ¬ t.Filled u := by
      rintro kids' hsub ⟨k, hk, u, hu, hunfit⟩
      exact ⟨_, List.mem_cons_self, u, PageTree.mem_nodes_trans hu
        (PageTree.mem_nodes_of_mem_kids (hsub hk)), hunfit⟩
    have hadmits : ∀ key ∈ init.flatMap PageTree.keys, b.admits key = true := fun key hkey => by
      refine h.admitted key ?_
      rw [PageTree.keys_branch, List.flatMap_append]
      exact List.mem_append_left _ hkey
    have hlinks : ∃ r₁ s₁, (s.fetched id).Seen s₁ ∧
        checkLinks (checkNode t fuel (some id)) id b 0 b.lower (p.separators.zip p.children)
          (s.fetched id) = (r₁, s₁) ∧
        t.Passes init r₁ (b.lower.toList ++ init.flatMap PageTree.keys).getLast? :=
      checkLinks_run (fun hm hk => hcheck hm (List.mem_append_left _ hk))
        (by rw [view_fetched, hm]) hids hgs
        (fun k hk => ⟨b, h.of_mem_kids (List.mem_append_left _ hk)⟩) hsorted hadmits
    obtain ⟨r₁, s₁, hseen₁, hlinks, rfl | ⟨hunfit, e, he, rfl⟩⟩ := hlinks
    case inr =>
      exact ⟨_, s₁, (Seen.node hn).trans hseen₁, hrun.trans (bind_error hlinks),
        .inr ⟨hbelow (List.subset_append_left _ _) hunfit, e, he, rfl⟩⟩
    obtain ⟨r₂, s₂, hseen₂, hright, hr₂⟩ :=
      hcheck (by rw [hseen₁.view, view_fetched, hm]) hrmem hrarranged
    rw [← hr] at hright
    have hseen := ((Seen.node hn).trans hseen₁).trans hseen₂
    rcases hr₂ with rfl | ⟨hunfit, e, he, rfl⟩
    · have hne := hcells r hrmem
      have hsome : ¬ r.greatest?.isNone = true := by
        rw [Option.isNone_iff_eq_none]
        exact Option.isSome_iff_ne_none.mp (PageTree.greatest?_isSome hne)
      refine ⟨_, s₂, hseen, ?_, .inl (congrArg Except.ok
        (PageTree.greatest?_branch id init hne).symm)⟩
      rw [hrun, bind_ok hlinks, bind_ok hright, if_neg hsome, pure_apply]
    · have hsub : [r] ⊆ init ++ [r] := List.subset_append_right _ _
      refine ⟨_, s₂, hseen, ?_, .inr ⟨hbelow hsub hunfit, e, he, rfl⟩⟩
      rw [hrun, bind_ok hlinks, bind_error hright]

/-- **Subtrees in order pass** if they are no higher than the levels a check goes down, unless a
node is not as full as it has to be. No node of them is empty. -/
theorem checkNode_run {fuel : Nat} {f : Fill} {top : Bool} (hm : s.view = m)
    (h : t.Arranged m up b T) (hw : T.Within f top) (hfuel : T.height ≤ fuel) :
    ∃ r s', s.Seen s' ∧ checkNode t fuel up T.id b s = (r, s') ∧ t.Passes [T] r T.greatest? := by
  induction fuel generalizing up b s T top with
  | zero => exact absurd hfuel (Nat.not_le.mpr T.height_pos)
  | succ fuel ih =>
    cases T with
    | leaf id cells => exact checkNode_leaf_run fuel hm h
    | branch id kids =>
      have hkids := (PageTree.within_branch.mp hw).2
      refine checkNode_branch_run hm h (fun k hk => (hkids k hk).cells_ne_nil) ?_
      intro s b k hm hk harranged
      have := PageTree.height_lt_of_mem_kids (i := id) hk
      exact ih hm harranged (hkids k hk) (by omega)

/-! ## The whole tree -/

/-- Nodes that are full enough one by one, none of them on the root page, are so as a tree. -/
theorem within_of_fits {f : Fill} {root : PageId} (hroot : root ∉ T.pages)
    (h : ∀ u ∈ T.nodes, u.Fits f (decide (u.id = root))) : T.Within f false := by
  have hne : T.id ≠ root := fun heq => hroot (heq ▸ T.id_mem_pages)
  have hfits := h T T.self_mem_nodes
  rw [decide_eq_false hne] at hfits
  induction T with
  | leaf id cells => rwa [PageTree.Within]
  | branch id kids ih =>
    rw [PageTree.Within]
    refine ⟨hfits, fun k hk => ?_⟩
    have hmem := PageTree.mem_nodes_of_mem_kids (i := id) hk
    have hrootk : root ∉ k.pages := fun hr => by
      obtain ⟨u, hu, hid⟩ := List.mem_map.mp hr
      exact hroot (hid ▸ List.mem_map_of_mem (PageTree.mem_nodes_trans hu hmem))
    have hnek : k.id ≠ root := fun heq => hrootk (heq ▸ k.id_mem_pages)
    have hfitsk := h k hmem
    rw [decide_eq_false hnek] at hfitsk
    exact ih k hk hrootk (fun u hu => h u (PageTree.mem_nodes_trans hu hmem)) hnek hfitsk

/-- The root is not found again below itself, so every other node is as full as the bounds ask. -/
theorem Checked.within (h : t.Checked m up b T) (hid : T.id = t.root) :
    T.Within t.config.fill true := by
  have hfits := h.fits T T.self_mem_nodes
  rw [decide_eq_true hid] at hfits
  cases T with
  | leaf id cells => rwa [PageTree.Within]
  | branch id kids =>
    rw [PageTree.Within]
    refine ⟨hfits, fun k hk => within_of_fits (?_ : t.root ∉ k.pages) fun u hu => ?_⟩
    · rw [← hid]
      exact h.held.unfolds.id_notMem_kids k hk
    · exact h.fits u (PageTree.mem_nodes_trans hu (PageTree.mem_nodes_of_mem_kids hk))

/-- A check that passes has seen a whole tree. -/
theorem rooted_of_validate (h : t.validate s = (.ok (), s')) :
    s.Seen s' ∧ ∃ T, Rooted s.view t.root t.config.fill T := by
  obtain ⟨g, s₁, hcheck, hpure⟩ := bind_eq_ok h
  rw [pure_apply, Prod.mk.injEq] at hpure
  obtain ⟨-, rfl⟩ := hpure
  obtain ⟨hseen, T, hid, -, hT⟩ := checkNode_sound rfl hcheck
  exact ⟨hseen, T, hid, hT.held, hT.within hid, hT.ordered⟩

/-- What a check says of a whole tree whose nodes are as full as `f` asks: nothing is wrong, or a
node is not as full as the configuration asks. -/
theorem validate_cases {f : Fill} (h : Rooted s.view t.root f T) :
    ∃ r s', s.Seen s' ∧ t.validate s = (r, s') ∧
      (r = .ok () ∨ (∃ u ∈ T.nodes, ¬ t.Filled u) ∧ ∃ e, Misfilled e ∧ r = .error e) := by
  have harranged : t.Arranged s.view none {} T := ⟨h.held, h.ordered, fun _ _ => rfl⟩
  have hheight : T.height ≤ checkDepth := Nat.le_trans h.held.unfolds.height_le (by decide)
  obtain ⟨r, s', hseen, hcheck, hr⟩ := checkNode_run rfl harranged h.within hheight
  rw [h.id_eq] at hcheck
  unfold validate
  rcases hr with rfl | ⟨⟨k, hk, hunfit⟩, e, he, rfl⟩
  · refine ⟨_, s', hseen, ?_, .inl rfl⟩
    rw [bind_ok hcheck, pure_apply]
  · obtain rfl := List.mem_singleton.mp hk
    exact ⟨_, s', hseen, bind_error hcheck, .inr ⟨hunfit, e, he, rfl⟩⟩

/-- A whole tree passes the check. -/
theorem validate_run (h : Rooted s.view t.root t.config.fill T) :
    ∃ s', s.Seen s' ∧ t.validate s = (.ok (), s') := by
  obtain ⟨r, s', hseen, hrun, rfl | ⟨⟨u, hu, hunfit⟩, -⟩⟩ := validate_cases h
  · exact ⟨s', hseen, hrun⟩
  · exact absurd (h.within_of_mem_nodes hu).fits hunfit

/-- **A check passes exactly if the pages unfold to a whole tree** within the configured bounds. -/
theorem validate_eq_ok_iff :
    (t.validate s).1 = .ok () ↔ ∃ T, Rooted s.view t.root t.config.fill T := by
  constructor
  · intro h
    have hrun : t.validate s = (.ok (), (t.validate s).2) := Prod.ext h rfl
    exact (rooted_of_validate hrun).2
  · rintro ⟨T, hT⟩
    obtain ⟨s', -, h⟩ := validate_run hT
    rw [h]

/-! ## Valid pages -/

/-- **The check of the tree is exact.** It passes exactly if child pointers from the root contain no
cycle and the pages they lead to are valid. No page that two links lead to passes. -/
theorem validate_eq_ok_iff_valid (t : Tree) (s : Pager) :
    ((t.validate s).1 = .ok () ↔ s.view.Acyclic t.root ∧ t.Valid s.view) ∧
      ¬ ((t.validate s).1 = .ok () ∧ s.view.Shared t.root) := by
  rw [validate_eq_ok_iff]
  refine ⟨⟨?_, ?_⟩, ?_⟩
  · rintro ⟨T, hT⟩
    refine ⟨?_, hT.valid⟩
    rw [← hT.id_eq]
    exact hT.held.unfolds.acyclic
  · rintro ⟨hacyclic, hvalid⟩
    exact hvalid.rooted hacyclic
  · rintro ⟨⟨T, hT⟩, hshared⟩
    exact hT.not_shared hshared

end PagedTable.Tree
