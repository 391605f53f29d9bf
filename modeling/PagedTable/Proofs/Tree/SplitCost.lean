import PagedTable.Proofs.Pager.History
import PagedTable.Proofs.PageTree.Reach
import PagedTable.Proofs.PageTree.Stored
import PagedTable.Proofs.Tree.Invariant

/-!
# What an insert costs

The pages that splits will take are counted before anything is written, by a walk up that is not the
one that splits. `insert_takes_counted`: both come to the same number.
-/

namespace PagedTable

open PagedTable.Action Pager

namespace Tree

variable {T : Tree} {s : Pager} {f : Fill} {t : PageTree} {x : Cell}

/-- The pages that child pointers lead to after an insert: those before it, and those that it
took. -/
theorem reaches_grown {cfg : Config} {root : PageId} {m m' : View} {fresh : Nat}
    (h : Rooted m root f t) (sp : t.Spot x.key)
    (h' : Rooted m' root f (sp.grown cfg fresh x)) (hroom : fresh + sp.cost cfg ≤ maxPages)
    (id : PageId) : m'.Reaches root id ↔
      m.Reaches root id ∨ fresh ≤ id.index ∧ id.index < fresh + sp.cost cfg := by
  have hnew : id ∈ (List.range' fresh (sp.cost cfg)).map PageId.ofIndex ↔
      fresh ≤ id.index ∧ id.index < fresh + sp.cost cfg := by
    rw [List.mem_map]
    constructor
    · rintro ⟨i, hi, rfl⟩
      rw [List.mem_range'_1] at hi
      rwa [PageId.index_ofIndex (Nat.lt_of_lt_of_le hi.2 (Nat.le_trans hroom (by decide)))]
    · exact fun hid => ⟨id.index, List.mem_range'_1.mpr hid, PageId.ofIndex_index id⟩
  have hbefore : m.Reaches _ id ↔ _ := h.held.unfolds.reaches_iff
  have hafter : m'.Reaches _ id ↔ _ := h'.held.unfolds.reaches_iff
  rw [h.id_eq] at hbefore
  rw [h'.id_eq] at hafter
  rw [hbefore, hafter, sp.pages_grown.mem_iff, List.mem_append, hnew]

/-- **An insert takes the pages that were counted for it.** In a tree that passes the check a search
ends on a leaf. If the leaf has room, an insert there takes no page and is not refused for want of
pages. If it has none and the key is not there yet, pages are counted for the insert. It is made if
the table can hold them: then it has taken exactly as many, the tree stands on those it stood on and
the new ones, and none of these was ever accessed before. Otherwise it is refused. -/
theorem insert_takes_counted (T : Tree) (s : Pager) (key : Key) (value : Payload)
    (hs : s.Reachable) (hvalid : (T.validate s).1 = .ok ()) :
    ∃ pos p, (T.search key s).1 = .ok pos ∧ s.view.node? pos.page = some (.leaf, p) ∧
      p.count ≤ T.config.leafMax ∧
      (p.count < T.config.leafMax →
        (T.insert key value s).2.count = s.count ∧
        (∀ page, (T.insert key value s).1 ≠ .error (.refused (.pageOutOfBounds page))) ∧
        (key ∉ s.view.keysBelow T.root → (T.insert key value s).1 = .ok ())) ∧
      (p.count = T.config.leafMax → key ∉ s.view.keysBelow T.root →
        ∃ needed, (T.splitCost walkLength pos.page 1 s).1 = .ok needed ∧
          (s.count + needed ≤ maxPages →
            (T.insert key value s).1 = .ok () ∧
            (T.insert key value s).2.count = s.count + needed ∧
            (∀ id, (T.insert key value s).2.view.Reaches T.root id ↔
              s.view.Reaches T.root id ∨ s.count ≤ id.index ∧ id.index < s.count + needed) ∧
            ∀ id, s.count ≤ id.index → id.index < s.count + needed → s.Untouched id) ∧
          (maxPages < s.count + needed → (T.insert key value s).1 =
            .error (.refused (.pageOutOfBounds (.ofIndex (s.count + needed - 1)))))) := by
  obtain ⟨t, h⟩ := validate_eq_ok_iff.mp hvalid
  have ha := T.config.fill_admits
  obtain ⟨sp, found, s₁, hfound, hseen₁, hrun₁⟩ := search_run h key
  obtain ⟨p, hn, -, -, hcount⟩ := sp.node h.held
  have hkeys : key ∈ s.view.keysBelow T.root ↔ key ∈ t.keys := by
    rw [← h.id_eq, h.held.unfolds.keysBelow_eq]
  refine ⟨⟨sp.leaf, sp.index, found⟩, p, congrArg Prod.fst hrun₁, hn,
    hcount ▸ sp.length_le h.within, fun hroom => ?_, fun hfull hkey => ?_⟩
  · rw [hcount] at hroom
    by_cases hmem : key ∈ t.keys
    · have hr := insert_run ha hs.sound h ⟨key, value⟩
      generalize T.insert key value s = r at hr
      cases hr with
      | duplicate _ seen =>
        refine ⟨(seen.sound hs.sound).2, fun page heq => ?_,
          fun hkey => absurd (hkeys.mpr hmem) hkey⟩
        cases heq
      | full _ notMem => exact absurd hmem notMem
      | added _ notMem => exact absurd hmem notMem
    · obtain rfl : found = false := Bool.eq_false_iff.mpr fun hf => hmem (hfound.mp hf)
      obtain ⟨s', hrun, -, hcount', -⟩ :=
        insert_room_run (x := ⟨key, value⟩) ha hs.sound h sp hmem hseen₁ hrun₁ hroom
      rw [hrun]
      refine ⟨hcount', fun page heq => ?_, fun _ => rfl⟩
      cases heq
  · rw [hcount] at hfull
    have hmem : key ∉ t.keys := hkeys.not.mp hkey
    obtain rfl : found = false := Bool.eq_false_iff.mpr fun hf => hmem (hfound.mp hf)
    obtain ⟨hplug, hid, hnd, hlt⟩ := sp.opened h
    obtain ⟨s', -, hcost⟩ := splitCost_run hplug hid hnd hlt 1
    rw [PageTree.id_leaf, ← sp.cost_of_full (Nat.le_of_eq hfull.symm)] at hcost
    obtain ⟨hover, hsplit⟩ := insert_full_run (x := ⟨key, value⟩) ha hs.sound h sp hmem hseen₁ hrun₁
      (Nat.le_of_eq hfull.symm)
    refine ⟨sp.cost T.config, congrArg Prod.fst hcost, fun hroom => ?_, fun hexcess => ?_⟩
    · obtain ⟨s', hrun, -, hcount', hrooted, -⟩ := hsplit hroom
      rw [hrun]
      exact ⟨rfl, hcount', reaches_grown (x := ⟨key, value⟩) h sp hrooted hroom,
        fun id hle hlt => hs.untouched (Nat.lt_of_lt_of_le hlt hroom) hle⟩
    · obtain ⟨s', -, hrun⟩ := hover hexcess
      rw [hrun]

/-- There are tables with any cells that a leaf may hold. -/
theorem exists_root_leaf {cells : List Cell} (hlen : cells.length ≤ T.config.leafMax)
    (hsorted : (cells.map Cell.key).Pairwise (· < ·)) (hroot : T.root.index < maxPages) :
    ∃ s : Pager, s.Reachable ∧ s.count = T.root.index + 1 ∧
      Rooted s.view T.root T.config.fill (.leaf T.root cells) := by
  have hw : (PageTree.leaf T.root cells).Within T.config.fill true :=
    PageTree.within_leaf.mpr ⟨fun h => absurd h (by decide), hlen⟩
  obtain ⟨s, hs, h, hcount⟩ := PageTree.exists_rooted hw hw.loosen
    (by rwa [PageTree.keys_leaf]) (by simp) (by simpa using hroot)
  rw [PageTree.pages_leaf] at hcount
  refine ⟨s, hs.reachable, Nat.le_antisymm ?_ ?_, h⟩
  · exact (hcount _).mpr (List.forall_mem_singleton.mpr (Nat.lt_succ_self _))
  · exact (hcount _).mp (Nat.le_refl _) T.root List.mem_cons_self

/-- A full root is split: its cells move to two new pages. -/
theorem insert_takes_counted_root :
    let T : Tree := { root := rootPage, config := { leafMax := 2 } }
    ∃ s : Pager, s.Reachable ∧ (T.validate s).1 = .ok () ∧ s.count = 1 ∧
      (T.splitCost walkLength rootPage 1 s).1 = .ok 2 ∧
      (T.insert 5 (Vector.replicate _ 0) s).1 = .ok () ∧
      (T.insert 5 (Vector.replicate _ 0) s).2.count = 3 := by
  intro T
  let cells : List Cell := [⟨3, Vector.replicate _ 0⟩, ⟨7, Vector.replicate _ 0⟩]
  obtain ⟨s, hs, hcount, h⟩ := exists_root_leaf (show cells.length ≤ T.config.leafMax by decide)
    (show List.Pairwise (· < ·) [(3 : Key), 7] by decide) (by decide)
  have hvalid := validate_eq_ok_iff.mpr ⟨_, h⟩
  obtain ⟨pos, p, hsearch, hn, -, -, hfull⟩ :=
    insert_takes_counted T s 5 (Vector.replicate _ 0) hs hvalid
  -- The search can only end on the root.
  obtain ⟨sp, found, s₁, -, -, hrun₁⟩ := search_run h 5
  have hpos : pos = ⟨sp.leaf, sp.index, found⟩ := by
    rw [hrun₁] at hsearch
    exact (Except.ok.inj hsearch).symm
  have hleaf : sp.leaf = rootPage := by
    have := sp.pages_perm.mem_iff.mpr List.mem_cons_self
    rwa [PageTree.pages_leaf, List.mem_singleton] at this
  have hpage : pos.page = rootPage := by rw [hpos, hleaf]
  have hp : p.count = 2 := by
    cases h.held with
    | leaf hroot _ hcells =>
      rw [hpage] at hn
      cases hroot.symm.trans hn
      rw [← Page.length_cells, hcells]
      rfl
  have hkey : (5 : Key) ∉ s.view.keysBelow T.root := by
    rw [← h.id_eq, h.held.unfolds.keysBelow_eq, PageTree.keys_leaf]
    exact show (5 : Key) ∉ [3, 7] by decide
  obtain ⟨needed, hcost, hroom, -⟩ := hfull hp hkey
  have hheld : Held s.view T.root none (PageTree.plug [] (.leaf T.root cells)) := h.held
  have hshort : ([] : List Crumb).length < walkLength := by decide
  obtain ⟨s', -, hcost'⟩ := splitCost_run hheld h.id_eq h.nodup hshort 1
  have hneeded : needed = 2 := by
    rw [hpage] at hcost
    exact Except.ok.inj (hcost.symm.trans (congrArg Prod.fst hcost'))
  subst hneeded
  obtain ⟨hok, hcount', -⟩ := hroom (by rw [hcount]; decide)
  exact ⟨s, hs, hvalid, hcount, hpage ▸ hcost, hok, hcount'.trans (by rw [hcount]; rfl)⟩

end Tree

end PagedTable
