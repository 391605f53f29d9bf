import PagedTable.Node.Lemmas

/-!
# Searching sorted nodes

`bisect` on increasing keys, and `lowerBound` on keys that do not decrease: where they end, all
smaller keys lie before and all others from there on.

* `bisect_sorted`, `lowerBound_sorted`: the answer for keys given as a list.
* `Page.find?_sorted`, `Page.findChild?_sorted`: the same for the cells of a leaf and the separators
  of an internal node.
-/

namespace PagedTable

variable {keyAt : Nat → Option Key} {keys : List Key} {key : Key} {lo hi i : Nat} {found : Bool}

/-- The keys before `i` are smaller than `key`, and those from `i` on are not. -/
structure Cuts (keys : List Key) (key : Key) (i : Nat) : Prop where
  le_length : i ≤ keys.length
  lt : ∀ k ∈ keys.take i, k < key
  le : ∀ k ∈ keys.drop i, key ≤ k

theorem Cuts.of_getElem (hi : i ≤ keys.length)
    (hlt : ∀ j (h : j < keys.length), j < i → keys[j] < key)
    (hle : ∀ j (h : j < keys.length), i ≤ j → key ≤ keys[j]) : Cuts keys key i := by
  refine ⟨hi, fun k hk => ?_, fun k hk => ?_⟩
  · obtain ⟨j, hj, rfl⟩ := List.mem_take_iff_getElem.mp hk
    exact hlt j (by omega) (by omega)
  · obtain ⟨j, hj, rfl⟩ := List.mem_drop_iff_getElem.mp hk
    exact hle (i + j) _ (by omega)

theorem getElem_lt (hs : keys.Pairwise (· < ·)) {a b : Nat} (ha : a < b) (hb : b < keys.length) :
    keys[a] < keys[b] :=
  List.pairwise_iff_getElem.mp hs a b (by omega) hb ha

theorem getElem_le (hs : keys.Pairwise (· ≤ ·)) {a b : Nat} (ha : a ≤ b) (hb : b < keys.length) :
    keys[a] ≤ keys[b] := by
  rcases Nat.eq_or_lt_of_le ha with rfl | ha
  · exact UInt32.le_refl _
  · exact List.pairwise_iff_getElem.mp hs a b (by omega) hb ha

/-- A bisection of increasing keys finds the key or the place for it. -/
theorem bisect_sorted (hs : keys.Pairwise (· < ·))
    (hk : ∀ j (h : j < keys.length), keyAt j = some keys[j]) (hle : lo ≤ hi)
    (hhi : hi ≤ keys.length) (hbefore : ∀ j (h : j < keys.length), j < lo → keys[j] < key)
    (hafter : ∀ j (h : j < keys.length), hi ≤ j → key < keys[j])
    (h : bisect keyAt key lo hi = some (i, found)) :
    Cuts keys key i ∧ (found = true ↔ keys[i]? = some key) := by
  have hsle : keys.Pairwise (· ≤ ·) := hs.imp UInt32.le_of_lt
  fun_induction bisect keyAt key lo hi with
  | case1 => cases h
  | case2 lo hi hlt mid hmid =>
    simp only [Option.some.injEq, Prod.mk.injEq] at h
    obtain ⟨rfl, rfl⟩ := h
    have hmidlt : mid < keys.length := by omega
    have hkey : keys[mid] = key := Option.some.inj ((hk mid hmidlt).symm.trans hmid)
    refine ⟨.of_getElem (by omega) (fun j _ hj => ?_) (fun j hjl hj => ?_), ?_⟩
    · rw [← hkey]
      exact getElem_lt hs hj hmidlt
    · rw [← hkey]
      exact getElem_le hsle hj hjl
    · rw [List.getElem?_eq_getElem hmidlt, hkey]
      exact ⟨fun _ => rfl, fun _ => rfl⟩
  | case3 lo hi hlt mid k hmid hne hlt' ih =>
    have hmidlt : mid < keys.length := by omega
    have hkey : keys[mid] = k := Option.some.inj ((hk mid hmidlt).symm.trans hmid)
    refine ih (by omega) hhi (fun j _ hj => ?_) hafter h
    exact UInt32.lt_of_le_of_lt (getElem_le hsle (Nat.le_of_lt_succ hj) hmidlt) (by rwa [hkey])
  | case4 lo hi hlt mid k hmid hne hge ih =>
    have hmidlt : mid < keys.length := by omega
    have hkey : keys[mid] = k := Option.some.inj ((hk mid hmidlt).symm.trans hmid)
    have hgt : key < k := UInt32.lt_of_le_of_ne (UInt32.not_lt.mp hge) (Ne.symm hne)
    refine ih (by omega) (by omega) hbefore (fun j hjl hj => ?_) h
    exact UInt32.lt_of_lt_of_le (by rwa [hkey]) (getElem_le hsle hj hjl)
  | case5 lo hi hge =>
    simp only [Option.some.injEq, Prod.mk.injEq] at h
    obtain ⟨rfl, rfl⟩ := h
    obtain rfl : lo = hi := by omega
    refine ⟨.of_getElem hhi hbefore fun j hjl hj => UInt32.le_of_lt (hafter j hjl hj), ?_⟩
    refine ⟨fun hfalse => absurd hfalse Bool.false_ne_true, fun hkey => ?_⟩
    obtain ⟨hlt, hkey⟩ := List.getElem?_eq_some_iff.mp hkey
    have hgt := hafter lo hlt (Nat.le_refl lo)
    rw [hkey] at hgt
    exact absurd hgt (UInt32.lt_irrefl key)

/-- The lower bound among keys that do not decrease. -/
theorem lowerBound_sorted (hs : keys.Pairwise (· ≤ ·))
    (hk : ∀ j (h : j < keys.length), keyAt j = some keys[j]) (hle : lo ≤ hi)
    (hhi : hi ≤ keys.length) (hbefore : ∀ j (h : j < keys.length), j < lo → keys[j] < key)
    (hafter : ∀ j (h : j < keys.length), hi ≤ j → key ≤ keys[j])
    (h : lowerBound keyAt key lo hi = some i) : Cuts keys key i := by
  fun_induction lowerBound keyAt key lo hi with
  | case1 => cases h
  | case2 lo hi hlt mid k hmid hle' ih =>
    have hmidlt : mid < keys.length := by omega
    have hkey : keys[mid] = k := Option.some.inj ((hk mid hmidlt).symm.trans hmid)
    refine ih (by omega) (by omega) hbefore (fun j hjl hj => ?_) h
    exact UInt32.le_trans (by rwa [hkey]) (getElem_le hs hj hjl)
  | case3 lo hi hlt mid k hmid hgt ih =>
    have hmidlt : mid < keys.length := by omega
    have hkey : keys[mid] = k := Option.some.inj ((hk mid hmidlt).symm.trans hmid)
    have hlt' : keys[mid] < key := by rw [hkey]; exact UInt32.not_le.mp hgt
    refine ih (by omega) hhi (fun j _ hj => ?_) hafter h
    exact UInt32.lt_of_le_of_lt (getElem_le hs (Nat.le_of_lt_succ hj) hmidlt) hlt'
  | case4 lo hi hge =>
    obtain rfl := Option.some.inj h
    obtain rfl : lo = hi := by omega
    exact .of_getElem hhi hbefore hafter

namespace Page

/-- **The search in a leaf.** -/
theorem find?_sorted {p : Page} (hcount : p.count ≤ leafCapacity)
    (hs : p.cellKeys.Pairwise (· < ·)) (key : Key) :
    ∃ i found, p.find? key = some (i, found) ∧ Cuts p.cellKeys key i ∧
      (found = true ↔ p.cellKeys[i]? = some key) := by
  have hk : ∀ j (h : j < p.cellKeys.length), p.cellKey? j = some p.cellKeys[j] := by
    intro j hj
    rw [length_cellKeys] at hj
    rw [cellKey?_eq p (by omega)]
    simp [cellKeys]
  have hsome : (p.find? key).isSome := bisect_isSome fun j _ hj => by
    rw [cellKey?_eq p (by omega)]
    rfl
  obtain ⟨⟨i, found⟩, hrun⟩ := Option.isSome_iff_exists.mp hsome
  refine ⟨i, found, hrun, bisect_sorted hs hk (Nat.zero_le _) ?_ ?_ ?_ hrun⟩
  · exact Nat.le_of_eq (length_cellKeys p).symm
  · exact fun j _ hj => absurd hj (Nat.not_lt_zero j)
  · exact fun j hj hle => absurd hj (by rw [length_cellKeys]; omega)

/-- **The search for a child.** -/
theorem findChild?_sorted {p : Page} (hcount : p.count ≤ internalCapacity)
    (hs : p.separators.Pairwise (· ≤ ·)) (key : Key) :
    ∃ i, p.findChild? key = some i ∧ Cuts p.separators key i := by
  have hk : ∀ j (h : j < p.separators.length), p.separator? j = some p.separators[j] := by
    intro j hj
    rw [length_separators] at hj
    rw [separator?_eq p (by omega)]
    simp [separators]
  have hsome : (p.findChild? key).isSome := lowerBound_isSome fun j _ hj => by
    rw [separator?_eq p (by omega)]
    rfl
  obtain ⟨i, hrun⟩ := Option.isSome_iff_exists.mp hsome
  refine ⟨i, hrun, lowerBound_sorted hs hk (Nat.zero_le _) ?_ ?_ ?_ hrun⟩
  · exact Nat.le_of_eq (length_separators p).symm
  · exact fun j _ hj => absurd hj (Nat.not_lt_zero j)
  · exact fun j hj hle => absurd hj (by rw [length_separators]; omega)

/-- A child that is listed is found at its index. -/
theorem child?_of_getElem? {p : Page} (hcount : p.count ≤ internalCapacity) {id : PageId}
    (h : p.children[i]? = some id) : p.child? i = some id := by
  obtain ⟨hi, rfl⟩ := List.getElem?_eq_some_iff.mp h
  rw [length_children] at hi
  rw [child?_eq hcount (by omega)]
  simp [children]

theorem cell?_of_getElem? {p : Page} (hcount : p.count ≤ leafCapacity) {x : Cell}
    (h : p.cells[i]? = some x) : p.cell? i = some x := by
  obtain ⟨hi, rfl⟩ := List.getElem?_eq_some_iff.mp h
  rw [length_cells] at hi
  rw [cell?_eq p (by omega)]
  simp [cells]

/-- The first place of a child, looked for from place `i` on. -/
theorem indexAmong_of_first {p : Page} {child : PageId} {i j n : Nat}
    (hcount : p.count ≤ internalCapacity) (hn : i + n = p.count + 1) (hij : i ≤ j)
    (hj : p.children[j]? = some child) (hfirst : ∀ k, i ≤ k → k < j → p.children[k]? ≠ some child) :
    p.indexAmong child i n = some (some j) := by
  have hlt : j < p.count + 1 := by
    rw [← length_children]
    exact (List.getElem?_eq_some_iff.mp hj).1
  induction n generalizing i with
  | zero => omega
  | succ n ih =>
    have hi : i < p.children.length := by
      rw [length_children]
      omega
    have hchild := child?_of_getElem? hcount (List.getElem?_eq_getElem hi)
    rw [indexAmong, hchild]
    dsimp only
    rcases Nat.eq_or_lt_of_le hij with rfl | hij
    · rw [List.getElem?_eq_getElem hi] at hj
      rw [if_pos (Option.some.inj hj)]
    · have hne : p.children[i] ≠ child := fun heq =>
        hfirst i (Nat.le_refl i) hij (by rw [List.getElem?_eq_getElem hi, heq])
      rw [if_neg hne]
      exact ih (by omega) hij fun k hk => hfirst k (Nat.le_of_succ_le hk)

/-- **The index of a child** that is listed once. -/
theorem indexOf?_of_children {p : Page} (hcount : p.count ≤ internalCapacity)
    {pre post : List PageId} {id : PageId} (h : p.children = pre ++ id :: post) (hid : id ∉ pre) :
    p.indexOf? id = some (some pre.length) := by
  refine indexAmong_of_first hcount (by omega) (Nat.zero_le _) (by simp [h]) fun k _ hk heq => ?_
  rw [h, List.getElem?_append_left hk] at heq
  exact hid (List.mem_of_getElem? heq)

end Page

end PagedTable
