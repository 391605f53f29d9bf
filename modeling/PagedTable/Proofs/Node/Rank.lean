import Mathlib.Order.Bounds.Defs
import PagedTable.Proofs.Node.Search
import PagedTable.Proofs.Node.Within

/-!
# The rank of a key

The rank of a key among others is how many of them are smaller. Where the keys of a node are in
order, a search answers the rank of the key that is looked for. In whatever order they are, it comes
to an answer up to the count, and asks for counted keys alone.

* `Cuts.rank_eq`: a cut is at the rank.
* `Page.find?_counted`, `Page.findChild?_counted`: searches among keys in any order.
* `Page.FindsKey`, `Page.FindsChild`: what the searches come to among keys in order.
* `Page.searches_rank`: both of it, for every page and key.
-/

namespace PagedTable

variable {keys : List Key} {key : Key} {i : Nat}

/-- The number of smaller keys. -/
def rank (keys : List Key) (key : Key) : Nat := keys.countP (· < key)

namespace Cuts

/-- **A cut is at the rank.** -/
theorem rank_eq (h : Cuts keys key i) : rank keys key = i := by
  have hbefore : (keys.take i).countP (· < key) = (keys.take i).length :=
    List.countP_eq_length.mpr fun k hk => decide_eq_true (h.lt k hk)
  have hfrom : (keys.drop i).countP (· < key) = 0 := List.countP_eq_zero.mpr fun k hk => by
    simpa using UInt32.not_lt.mpr (h.le k hk)
  calc rank keys key = (keys.take i ++ keys.drop i).countP (· < key) := by
        rw [List.take_append_drop, rank]
    _ = i := by
        rw [List.countP_append, hbefore, hfrom, Nat.add_zero, List.length_take,
          Nat.min_eq_left h.le_length]

/-- No key before a cut is as great as the one that it is for. -/
theorem le_of_getElem? {j : Nat} {k : Key} (h : Cuts keys key i) (hk : keys[j]? = some k)
    (hle : key ≤ k) : i ≤ j := by
  refine Nat.le_of_not_lt fun hlt => ?_
  have hmem : k ∈ keys.take i := by
    refine List.mem_of_getElem? (i := j) ?_
    rw [List.getElem?_take, if_pos hlt, hk]
  exact UInt32.lt_irrefl key (UInt32.lt_of_le_of_lt hle (h.lt k hmem))

/-- A cut is before the first key that is great enough, or behind all keys. -/
theorem isLeast_or (h : Cuts keys key i) :
    IsLeast {j | ∃ k, keys[j]? = some k ∧ key ≤ k} i ∨ i = keys.length ∧ ∀ k ∈ keys, k < key := by
  rcases Nat.eq_or_lt_of_le h.le_length with heq | hlt
  · refine .inr ⟨heq, fun k hk => h.lt k ?_⟩
    rwa [heq, List.take_length]
  · refine .inl ⟨⟨keys[i], List.getElem?_eq_getElem hlt, h.le _ ?_⟩, ?_⟩
    · exact List.mem_drop_iff_getElem.mpr ⟨0, by omega, rfl⟩
    · rintro j ⟨k, hk, hle⟩
      exact h.le_of_getElem? hk hle

end Cuts

namespace Page

variable {p : Page}

/-! ## Keys in any order -/

/-- The search in a leaf comes to the same answer if it is told the counted keys alone. Asked for
any other one, `keyAt` may have no answer, which would end the search without one. -/
theorem find?_counted (h : p.count ≤ leafCapacity) (key : Key) :
    ∃ i found, p.find? key = some (i, found) ∧ i ≤ p.count ∧
      ∀ keyAt : Nat → Option Key, (∀ j < p.count, keyAt j = some (p.cellKey j)) →
        bisect keyAt key 0 p.count = some (i, found) := by
  obtain ⟨⟨i, found⟩, hfind, hle, -⟩ := find?_within h key
  refine ⟨i, found, hfind, hle, fun keyAt hkeys => ?_⟩
  rw [← hfind]
  refine bisect_congr fun j _ hj => ?_
  rw [hkeys j hj, cellKey?_eq p (Nat.lt_of_lt_of_le hj h)]

/-- So does the search in an internal node. -/
theorem findChild?_counted (h : p.count ≤ internalCapacity) (key : Key) :
    ∃ i, p.findChild? key = some i ∧ i ≤ p.count ∧
      ∀ keyAt : Nat → Option Key, (∀ j < p.count, keyAt j = some (p.separator j)) →
        lowerBound keyAt key 0 p.count = some i := by
  obtain ⟨i, hfind, hle⟩ := findChild?_within h key
  refine ⟨i, hfind, hle, fun keyAt hkeys => ?_⟩
  rw [← hfind]
  refine lowerBound_congr fun j _ hj => ?_
  rw [hkeys j hj, separator?_eq p (Nat.lt_of_lt_of_le hj h)]

/-! ## Keys in order -/

/-- The search in a leaf finds the key where it is, and else the number of smaller keys. -/
structure FindsKey (p : Page) (key : Key) : Prop where
  present : key ∈ p.cellKeys → ∃ i, p.find? key = some (i, true) ∧ p.cellKeys[i]? = some key
  absent : key ∉ p.cellKeys → p.find? key = some (rank p.cellKeys key, false)

/-- The search in an internal node answers the number of smaller separators. That is the least
index of one that is not smaller, or the index of the right child. -/
structure FindsChild (p : Page) (key : Key) : Prop where
  answer : p.findChild? key = some (rank p.separators key)
  place : IsLeast {i | ∃ k, p.separators[i]? = some k ∧ key ≤ k} (rank p.separators key) ∨
    rank p.separators key = p.count ∧ ∀ k ∈ p.separators, k < key

theorem findsKey_of_sorted (h : p.count ≤ leafCapacity) (hs : p.cellKeys.Pairwise (· < ·))
    (key : Key) : p.FindsKey key := by
  obtain ⟨i, found, hfind, hcut, hfound⟩ := find?_sorted h hs key
  have hrank := hcut.rank_eq
  constructor
  case present =>
    intro hmem
    -- The keys before the cut are smaller, so the key is the first one behind it.
    obtain ⟨j, hj⟩ := List.getElem?_of_mem hmem
    have hij := hcut.le_of_getElem? hj (UInt32.le_refl key)
    obtain ⟨hjlt, hjkey⟩ := List.getElem?_eq_some_iff.mp hj
    have hle : p.cellKeys[i] ≤ key := hjkey ▸ getElem_le (hs.imp UInt32.le_of_lt) hij hjlt
    have hge : key ≤ p.cellKeys[i] :=
      hcut.le _ (List.mem_drop_iff_getElem.mpr ⟨0, by omega, rfl⟩)
    have hkey : p.cellKeys[i]? = some key := by
      rw [List.getElem?_eq_getElem (Nat.lt_of_le_of_lt hij hjlt), UInt32.le_antisymm hle hge]
    exact ⟨i, by rw [hfind, hfound.mpr hkey], hkey⟩
  case absent =>
    intro hmem
    have hnot : found = false := Bool.eq_false_iff.mpr fun hf =>
      hmem (List.mem_of_getElem? (hfound.mp hf))
    rw [hfind, hnot, hrank]

theorem findsChild_of_sorted (h : p.count ≤ internalCapacity)
    (hs : p.separators.Pairwise (· ≤ ·)) (key : Key) : p.FindsChild key := by
  obtain ⟨i, hfind, hcut⟩ := findChild?_sorted h hs key
  have hplace := hcut.isLeast_or
  rw [length_separators, ← hcut.rank_eq] at hplace
  exact ⟨by rw [hfind, hcut.rank_eq], hplace⟩

/-- **Searches answer ranks.** On a page with room for what it counts a search comes to an answer
up to the count, whatever the order of the keys is, and asks for counted keys alone. In a leaf with
increasing keys it finds the key or the number of smaller keys. In an internal node with keys that
do not decrease it answers the number of smaller keys. -/
theorem searches_rank (p : Page) (key : Key) :
    (p.count ≤ leafCapacity →
      (∃ i found, p.find? key = some (i, found) ∧ i ≤ p.count ∧
        ∀ keyAt : Nat → Option Key, (∀ j < p.count, keyAt j = some (p.cellKey j)) →
          bisect keyAt key 0 p.count = some (i, found)) ∧
      (p.cellKeys.Pairwise (· < ·) → p.FindsKey key)) ∧
    (p.count ≤ internalCapacity →
      (∃ i, p.findChild? key = some i ∧ i ≤ p.count ∧
        ∀ keyAt : Nat → Option Key, (∀ j < p.count, keyAt j = some (p.separator j)) →
          lowerBound keyAt key 0 p.count = some i) ∧
      (p.separators.Pairwise (· ≤ ·) → p.FindsChild key)) :=
  ⟨fun h => ⟨find?_counted h key, fun hs => findsKey_of_sorted h hs key⟩,
    fun h => ⟨findChild?_counted h key, fun hs => findsChild_of_sorted h hs key⟩⟩

/-- A leaf with two keys, and an internal node in which a separator occurs twice. -/
theorem searches_rank_twice :
    (∃ p : Page, p.cellKeys = [2, 4] ∧ p.find? 4 = some (1, true) ∧ p.find? 3 = some (1, false)) ∧
    ∃ p : Page, p.separators = [3, 3, 5] ∧ p.findChild? 3 = some 0 ∧ p.findChild? 4 = some 2 ∧
      p.findChild? 6 = some 3 := by
  constructor
  · obtain ⟨p, hp, -⟩ := exists_setCells? zero
      [⟨2, Vector.replicate _ 0⟩, ⟨4, Vector.replicate _ 0⟩] (by decide)
    have hkeys : p.cellKeys = [2, 4] := by rw [← map_key_cells, cells_of_setCells? hp]; rfl
    have hcount : p.count ≤ leafCapacity := by rw [← length_cellKeys, hkeys]; decide
    have hfinds : ∀ key, p.FindsKey key := fun key =>
      ((searches_rank p key).1 hcount).2 (by rw [hkeys]; decide)
    refine ⟨p, hkeys, ?_, by rw [(hfinds 3).absent (by rw [hkeys]; decide), hkeys]; rfl⟩
    obtain ⟨i, hfind, hi⟩ := (hfinds 4).present (by rw [hkeys]; decide)
    rw [hkeys] at hi
    match i, hi with
    | 1, _ => exact hfind
  · obtain ⟨p, hp, -⟩ := exists_setLinks? zero [⟨⟨1⟩, 3⟩, ⟨⟨2⟩, 3⟩, ⟨⟨3⟩, 5⟩] ⟨4⟩ (by decide)
    have hseps : p.separators = [3, 3, 5] := separators_of_setLinks? hp
    have hcount : p.count ≤ internalCapacity := by rw [← length_separators, hseps]; decide
    have hfinds : ∀ key, p.findChild? key = some (rank [3, 3, 5] key) := fun key => by
      rw [(((searches_rank p key).2 hcount).2 (by rw [hseps]; decide)).answer, hseps]
    exact ⟨p, hseps, hfinds 3, hfinds 4, hfinds 6⟩

end Page

end PagedTable
