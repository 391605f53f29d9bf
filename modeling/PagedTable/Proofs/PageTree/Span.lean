import PagedTable.Proofs.PageTree.Reach
import PagedTable.Proofs.PageTree.Spot

/-!
# Pages in use

The pages in use are those with numbers below the page count. No way down a tree may lead past them,
and each of them must be found on one way: a page on none is lost, and one on two would be
overwritten in one place with what belongs in the other.

* `View.follow`: the page at the end of a way down, given by which child is taken at each step.
* `View.Spans`: one way leads to every page in use, and none leads anywhere else.
* `PageTree.Occupies`: the same, said of the tree. A new cell keeps it up
  (`Spot.occupies_grown`).
* `Rooted.spans`: from the tree to its pages.
-/

namespace PagedTable

variable {m : View} {root : PageId} {f : Fill} {T t : PageTree} {cfg : Config} {n : Nat} {key : Key}
  {x : Cell}

namespace View

/-- The page that a way down from `id` ends at. Each step goes to the child at an index. -/
def follow (m : View) : List Nat → PageId → Option PageId
  | [], id => some id
  | i :: way, id =>
    match m.node? id with
    | some (.internal, p) => p.children[i]?.bind (m.follow way)
    | _ => none

/-- One way down from `root` leads to every page with a number below `n`, and none leads to another
page. -/
structure Spans (m : View) (root : PageId) (n : Nat) : Prop where
  once : ∀ id : PageId, id.index < n → ∃! way, m.follow way root = some id
  within : ∀ way id, m.follow way root = some id → id.index < n

end View

namespace Unfolds

theorem follow_leaf {i j : PageId} {cells : List Cell} {way : List Nat}
    (h : Unfolds m (.leaf i cells)) (hway : m.follow way i = some j) : way = [] ∧ j = i := by
  cases h with
  | leaf hn =>
    cases way with
    | nil => exact ⟨rfl, (Option.some.inj hway).symm⟩
    | cons => simp only [View.follow, hn, reduceCtorEq] at hway

/-- A step down a branch. -/
theorem follow_branch {i : PageId} {kids : List PageTree} (h : Unfolds m (.branch i kids))
    (k : Nat) (way : List Nat) :
    m.follow (k :: way) i = kids[k]?.bind fun kid => m.follow way kid.id := by
  cases h with
  | branch hn hc =>
    simp only [View.follow, hn, hc, List.getElem?_map, Option.bind_map]
    rfl

/-- A way from a branch goes on from one of its children. -/
theorem exists_of_follow_cons {i j : PageId} {kids : List PageTree} {k : Nat} {way : List Nat}
    (h : Unfolds m (.branch i kids)) (hway : m.follow (k :: way) i = some j) :
    ∃ kid, kids[k]? = some kid ∧ Unfolds m kid ∧ m.follow way kid.id = some j := by
  rw [h.follow_branch, Option.bind_eq_some_iff] at hway
  obtain ⟨kid, hkid, hway⟩ := hway
  have hmem := List.mem_of_getElem? hkid
  exact ⟨kid, hkid, h.of_mem_nodes (PageTree.mem_nodes_of_mem_kids hmem), hway⟩

/-- Ways down lead to pages of the tree. -/
theorem mem_pages_of_follow {way : List Nat} {j : PageId} (h : Unfolds m T)
    (hway : m.follow way T.id = some j) : j ∈ T.pages := by
  induction T generalizing way with
  | leaf i cells =>
    obtain ⟨-, rfl⟩ := h.follow_leaf hway
    simp
  | branch i kids ih =>
    rw [PageTree.pages_branch, List.mem_cons]
    cases way with
    | nil => exact .inl (Option.some.inj hway).symm
    | cons k way =>
      obtain ⟨kid, hkid, hunf, hway⟩ := h.exists_of_follow_cons hway
      have hmem := List.mem_of_getElem? hkid
      exact .inr (List.mem_flatMap.mpr ⟨kid, hmem, ih kid hmem hunf hway⟩)

/-- No way leads back to where it began. -/
theorem follow_cons_ne {k : Nat} {way : List Nat} (h : Unfolds m T) :
    m.follow (k :: way) T.id ≠ some T.id := by
  intro hway
  cases T with
  | leaf i cells => cases (h.follow_leaf hway).1
  | branch i kids =>
    obtain ⟨kid, hkid, hunf, hway⟩ := h.exists_of_follow_cons hway
    exact h.id_notMem_kids kid (List.mem_of_getElem? hkid) (hunf.mem_pages_of_follow hway)

/-- There is a way to every page of the tree. -/
theorem exists_follow {j : PageId} (h : Unfolds m T) (hj : j ∈ T.pages) :
    ∃ way, m.follow way T.id = some j := by
  induction T with
  | leaf i cells =>
    rw [PageTree.pages_leaf, List.mem_singleton] at hj
    exact ⟨[], by rw [hj]; rfl⟩
  | branch i kids ih =>
    rw [PageTree.pages_branch, List.mem_cons, List.mem_flatMap] at hj
    rcases hj with rfl | ⟨kid, hkid, hj⟩
    · exact ⟨[], rfl⟩
    · obtain ⟨way, hway⟩ := ih kid hkid
        (h.of_mem_nodes (PageTree.mem_nodes_of_mem_kids hkid)) hj
      obtain ⟨k, hk⟩ := List.getElem?_of_mem hkid
      exact ⟨k :: way, by rw [PageTree.id_branch, h.follow_branch, hk, Option.bind_some, hway]⟩

/-- Children that have a page in common are the same. -/
theorem kid_index_unique {kids : List PageTree} {kid kid' : PageTree} {k k' : Nat} {j : PageId}
    (hdisjoint : kids.Pairwise fun a b => List.Disjoint a.pages b.pages)
    (hkid : kids[k]? = some kid) (hkid' : kids[k']? = some kid') (hj : j ∈ kid.pages)
    (hj' : j ∈ kid'.pages) : k = k' := by
  obtain ⟨hk, rfl⟩ := List.getElem?_eq_some_iff.mp hkid
  obtain ⟨hk', rfl⟩ := List.getElem?_eq_some_iff.mp hkid'
  rw [List.pairwise_iff_getElem] at hdisjoint
  rcases Nat.lt_trichotomy k k' with hlt | heq | hlt
  · exact absurd hj' (hdisjoint k k' hk hk' hlt hj)
  · exact heq
  · exact absurd hj (hdisjoint k' k hk' hk hlt hj')

/-- Where no page occurs twice in the tree, there is one way only. -/
theorem follow_unique {way way' : List Nat} {j : PageId} (h : Unfolds m T) (hnd : T.pages.Nodup)
    (hway : m.follow way T.id = some j) (hway' : m.follow way' T.id = some j) : way = way' := by
  induction T generalizing way way' with
  | leaf i cells => rw [(h.follow_leaf hway).1, (h.follow_leaf hway').1]
  | branch i kids ih =>
    rw [PageTree.pages_branch, List.nodup_cons, List.nodup_flatMap] at hnd
    obtain ⟨-, hnd, hdisjoint⟩ := hnd
    cases way with
    | nil =>
      obtain rfl : i = j := Option.some.inj hway
      cases way' with
      | nil => rfl
      | cons k' way' => exact absurd hway' h.follow_cons_ne
    | cons k way =>
      cases way' with
      | nil =>
        obtain rfl : i = j := Option.some.inj hway'
        exact absurd hway h.follow_cons_ne
      | cons k' way' =>
        obtain ⟨kid, hkid, hunf, hway⟩ := h.exists_of_follow_cons hway
        obtain ⟨kid', hkid', hunf', hway'⟩ := h.exists_of_follow_cons hway'
        obtain rfl := kid_index_unique hdisjoint hkid hkid' (hunf.mem_pages_of_follow hway)
          (hunf'.mem_pages_of_follow hway')
        obtain rfl := Option.some.inj (hkid.symm.trans hkid')
        have hmem := List.mem_of_getElem? hkid
        rw [ih kid hmem hunf (hnd kid hmem) hway hway']

end Unfolds

namespace PageTree

/-- The tree stands on the pages with numbers below `n`, and on no others. -/
def Occupies (n : Nat) (T : PageTree) : Prop := ∀ id : PageId, id ∈ T.pages ↔ id.index < n

/-- A single leaf on the first page. -/
theorem occupies_leaf (cells : List Cell) : Occupies 1 (.leaf rootPage cells) := by
  intro id
  rw [pages_leaf, List.mem_singleton, Nat.lt_one_iff]
  exact PageId.index_inj.symm

/-- **A new cell** takes the next pages, and no page is given up. -/
theorem Spot.occupies_grown (sp : T.Spot key) (h : Occupies n T)
    (hroom : n + sp.cost cfg ≤ maxPages) :
    Occupies (n + sp.cost cfg) (sp.grown cfg n x) := by
  intro id
  rw [sp.pages_grown.mem_iff, List.mem_append, h id, List.mem_map]
  constructor
  · rintro (hlt | ⟨i, hi, rfl⟩)
    · omega
    · rw [List.mem_range'_1] at hi
      have hlt : i < UInt32.size := Nat.lt_trans (Nat.lt_of_lt_of_le hi.2 hroom) (by decide)
      rw [PageId.index_ofIndex hlt]
      exact hi.2
  · intro hlt
    by_cases hid : id.index < n
    · exact .inl hid
    · refine .inr ⟨id.index, ?_, id.ofIndex_index⟩
      rw [List.mem_range'_1]
      exact ⟨Nat.le_of_not_lt hid, hlt⟩

end PageTree

/-- **The pages of a whole tree** that occupies the pages in use. -/
theorem Rooted.spans (h : Rooted m root f T) (hT : T.Occupies n) : m.Spans root n := by
  have hunf := h.held.unfolds
  rw [← h.id_eq]
  constructor
  · intro id hid
    obtain ⟨way, hway⟩ := hunf.exists_follow ((hT id).mpr hid)
    exact ⟨way, hway, fun way' hway' => hunf.follow_unique h.nodup hway' hway⟩
  · exact fun way id hway => (hT id).mp (hunf.mem_pages_of_follow hway)

end PagedTable
