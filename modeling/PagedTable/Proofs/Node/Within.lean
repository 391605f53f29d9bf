import PagedTable.Node.Lemmas
import PagedTable.Node.Search

/-!
# What is asked of a node is there

A page that loads has room for what it counts, whatever its bytes are. So a search of it comes to an
answer, sorted or not, and so does a change that keeps the count within the room of a page.

* `find?_within`, `findChild?_within`, `indexOf?_within`: searches.
* `exists_insertCell?`, `exists_setLinks?`, …: changes, and the counts they leave.
-/

namespace PagedTable

namespace Page

variable {p q : Page} {key : Key}

/-- The search in a leaf. -/
theorem find?_within (h : p.count ≤ leafCapacity) (key : Key) :
    ∃ r, p.find? key = some r ∧ r.1 ≤ p.count ∧ (r.2 = true → r.1 < p.count) := by
  have hsome : (p.find? key).isSome := bisect_isSome fun i _ hi => by
    rw [cellKey?_eq p (Nat.lt_of_lt_of_le hi h)]
    rfl
  obtain ⟨⟨i, found⟩, hr⟩ := Option.isSome_iff_exists.mp hsome
  obtain ⟨-, hle, hlt⟩ := bisect_bounds (Nat.zero_le _) hr
  exact ⟨(i, found), hr, hle, fun hf => (hlt hf).1⟩

/-- The search in an internal node. -/
theorem findChild?_within (h : p.count ≤ internalCapacity) (key : Key) :
    ∃ i, p.findChild? key = some i ∧ i ≤ p.count := by
  have hsome : (p.findChild? key).isSome := lowerBound_isSome fun i _ hi => by
    rw [separator?_eq p (Nat.lt_of_lt_of_le hi h)]
    rfl
  obtain ⟨i, hi⟩ := Option.isSome_iff_exists.mp hsome
  exact ⟨i, hi, (lowerBound_bounds (Nat.zero_le _) hi).2⟩

theorem indexAmong_within (h : p.count ≤ internalCapacity) (child : PageId) {i n : Nat}
    (hi : i + n ≤ p.count + 1) :
    ∃ r, p.indexAmong child i n = some r ∧ ∀ j, r = some j → j ≤ p.count := by
  induction n generalizing i with
  | zero => exact ⟨none, rfl, fun j hj => by cases hj⟩
  | succ n ih =>
    rw [indexAmong, child?_eq h (by omega)]
    dsimp only
    split
    · refine ⟨some i, rfl, fun j hj => ?_⟩
      cases hj
      omega
    · exact ih (by omega)

/-- The search for a child. -/
theorem indexOf?_within (h : p.count ≤ internalCapacity) (child : PageId) :
    ∃ r, p.indexOf? child = some r ∧ ∀ j, r = some j → j ≤ p.count :=
  indexAmong_within h child (by omega)

/-- A node names a child for every place up to its count. -/
theorem exists_child (h : p.count ≤ internalCapacity) {i : Nat} (hi : i ≤ p.count) :
    ∃ c ∈ p.children, p.child? i = some c :=
  ⟨p.child i, List.mem_map_of_mem (List.mem_range.mpr (Nat.lt_succ_of_le hi)), child?_eq h hi⟩

theorem rightChild_mem_children (p : Page) : p.rightChild ∈ p.children := by
  rw [children_eq]
  exact List.mem_append_right _ List.mem_cons_self

theorem count_setCells? {cs : List Cell} (h : p.setCells? cs = some q) : q.count = cs.length := by
  rw [← length_cells, cells_of_setCells? h]

theorem count_setLinks? {ls : List Link} {right : PageId} (h : p.setLinks? ls right = some q) :
    q.count = ls.length := by
  rw [← length_links, (links_of_setLinks? h).1]

theorem exists_setCells? (p : Page) (cs : List Cell) (h : cs.length ≤ leafCapacity) :
    ∃ q, p.setCells? cs = some q ∧ q.count ≤ internalCapacity := by
  obtain ⟨q, hq⟩ : ∃ q, p.setCells? cs = some q := ⟨_, if_pos h⟩
  exact ⟨q, hq, count_setCells? hq ▸ Nat.le_trans h leafCapacity_le⟩

/-- A cell is taken in where there is room. -/
theorem exists_insertCell? {i : Nat} (hi : i ≤ p.count) (hroom : p.count < leafCapacity)
    (c : Cell) : ∃ q, p.insertCell? i c = some q ∧ q.count ≤ internalCapacity := by
  obtain ⟨q, hq⟩ : ∃ q, p.insertCell? i c = some q := ⟨_, if_pos ⟨hi, hroom⟩⟩
  have hlen := congrArg List.length (cells_of_insertCell? hq)
  rw [List.length_insertIdx_of_le_length (by rwa [length_cells]), length_cells,
    length_cells] at hlen
  exact ⟨q, hq, hlen ▸ Nat.le_trans hroom leafCapacity_le⟩

theorem exists_setLinks? (p : Page) (ls : List Link) (right : PageId)
    (h : ls.length ≤ internalCapacity) :
    ∃ q, p.setLinks? ls right = some q ∧ q.count ≤ internalCapacity := by
  obtain ⟨q, hq⟩ : ∃ q, p.setLinks? ls right = some q := ⟨_, if_pos h⟩
  exact ⟨q, hq, count_setLinks? hq ▸ h⟩

/-- A child that exists can be replaced. -/
theorem exists_setChild? (h : p.count ≤ internalCapacity) {i : Nat} (hi : i ≤ p.count)
    (child : PageId) : ∃ q, p.setChild? i child = some q ∧ q.count = p.count := by
  obtain ⟨q, hq⟩ : ∃ q, p.setChild? i child = some q := by
    unfold setChild?
    split
    · exact ⟨_, rfl⟩
    · exact ⟨_, if_pos (link_within (by omega)).1⟩
  refine ⟨q, hq, ?_⟩
  have hlen := congrArg List.length (children_of_setChild? h hi hq).1
  rw [List.length_set, length_children, length_children] at hlen
  omega

/-- A child is taken in beside another one where there is room. -/
theorem exists_insertLink? {i : Nat} (hi : i ≤ p.count) (hroom : p.count < internalCapacity)
    (l : Link) (right : PageId) :
    ∃ q, ((p.insertLink? i l).bind fun p => p.setChild? (i + 1) right) = some q ∧
      q.count ≤ internalCapacity := by
  obtain ⟨q, hq⟩ : ∃ q, p.insertLink? i l = some q := ⟨_, if_pos ⟨hi, hroom⟩⟩
  have hcount : q.count = p.count + 1 := by
    have hlen := congrArg List.length (links_of_insertLink? hq).1
    rwa [List.length_insertIdx_of_le_length (by rwa [length_links]), length_links,
      length_links] at hlen
  obtain ⟨r, hr, hcount'⟩ := exists_setChild? (p := q) (i := i + 1) (by omega) (by omega) right
  exact ⟨r, by rw [hq, Option.bind_some, hr], by omega⟩

end Page

end PagedTable
