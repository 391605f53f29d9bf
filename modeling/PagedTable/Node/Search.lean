import PagedTable.Node.Layout

/-!
# Searching a node

Both searches halve a window of indexes. They ask only for keys inside the window, so a search
below the count asks for counted keys alone, sorted or not:

* `bisect_isSome`, `lowerBound_isSome`: a search comes to an answer if the keys of its window exist;
* `bisect_bounds`, `lowerBound_bounds`: the answer lies in the window or just behind it;
* `bisect_congr`, `lowerBound_congr`: the answer hangs on the keys of the window alone.
-/

namespace PagedTable

/-- Looks for `key` among the keys `keyAt lo`, …, `keyAt (hi - 1)`: the index where it is and
`true`, or the index where it would go and `false`. It ends as soon as it meets the key. -/
def bisect (keyAt : Nat → Option Key) (key : Key) (lo hi : Nat) : Option (Nat × Bool) :=
  if lo < hi then
    let mid := lo + (hi - lo) / 2
    match keyAt mid with
    | none => none
    | some k =>
      if k = key then some (mid, true)
      else if k < key then bisect keyAt key (mid + 1) hi
      else bisect keyAt key lo mid
  else some (lo, false)
termination_by hi - lo

/-- The first index in the window from `lo` to `hi` whose key is at least `key`, or `hi`. -/
def lowerBound (keyAt : Nat → Option Key) (key : Key) (lo hi : Nat) : Option Nat :=
  if lo < hi then
    let mid := lo + (hi - lo) / 2
    match keyAt mid with
    | none => none
    | some k =>
      if key ≤ k then lowerBound keyAt key lo mid else lowerBound keyAt key (mid + 1) hi
  else some lo
termination_by hi - lo

theorem bisect_isSome {keyAt : Nat → Option Key} {key : Key} {lo hi : Nat}
    (h : ∀ i, lo ≤ i → i < hi → (keyAt i).isSome) : (bisect keyAt key lo hi).isSome := by
  fun_induction bisect keyAt key lo hi with
  | case1 lo hi hlt mid hnone =>
    have := h mid (by omega) (by omega)
    simp [hnone] at this
  | case2 => rfl
  | case3 lo hi hlt mid k hk hne hlt' ih => exact ih fun i h₁ h₂ => h i (by omega) h₂
  | case4 lo hi hlt mid k hk hne hge ih => exact ih fun i h₁ h₂ => h i h₁ (by omega)
  | case5 => rfl

theorem bisect_bounds {keyAt : Nat → Option Key} {key : Key} {lo hi i : Nat} {found : Bool}
    (hle : lo ≤ hi) (h : bisect keyAt key lo hi = some (i, found)) :
    lo ≤ i ∧ i ≤ hi ∧ (found = true → i < hi ∧ keyAt i = some key) := by
  fun_induction bisect keyAt key lo hi with
  | case1 => simp at h
  | case2 lo hi hlt mid hk =>
    simp only [Option.some.injEq, Prod.mk.injEq] at h
    obtain ⟨rfl, rfl⟩ := h
    exact ⟨by omega, by omega, fun _ => ⟨by omega, hk⟩⟩
  | case3 lo hi hlt mid k hk hne hlt' ih =>
    have := ih (by omega) h
    exact ⟨by omega, this.2.1, this.2.2⟩
  | case4 lo hi hlt mid k hk hne hge ih =>
    have := ih (by omega) h
    exact ⟨this.1, by omega, fun hf => ⟨by have := this.2.2 hf; omega, (this.2.2 hf).2⟩⟩
  | case5 lo hi hge =>
    simp only [Option.some.injEq, Prod.mk.injEq] at h
    obtain ⟨rfl, rfl⟩ := h
    exact ⟨by omega, by omega, by simp⟩

theorem lowerBound_isSome {keyAt : Nat → Option Key} {key : Key} {lo hi : Nat}
    (h : ∀ i, lo ≤ i → i < hi → (keyAt i).isSome) : (lowerBound keyAt key lo hi).isSome := by
  fun_induction lowerBound keyAt key lo hi with
  | case1 lo hi hlt mid hnone =>
    have := h mid (by omega) (by omega)
    simp [hnone] at this
  | case2 lo hi hlt mid k hk hle ih => exact ih fun i h₁ h₂ => h i h₁ (by omega)
  | case3 lo hi hlt mid k hk hgt ih => exact ih fun i h₁ h₂ => h i (by omega) h₂
  | case4 => rfl

theorem lowerBound_bounds {keyAt : Nat → Option Key} {key : Key} {lo hi i : Nat}
    (hle : lo ≤ hi) (h : lowerBound keyAt key lo hi = some i) : lo ≤ i ∧ i ≤ hi := by
  fun_induction lowerBound keyAt key lo hi with
  | case1 => simp at h
  | case2 lo hi hlt mid k hk hle' ih => have := ih (by omega) h; omega
  | case3 lo hi hlt mid k hk hgt ih => have := ih (by omega) h; omega
  | case4 lo hi hge =>
    simp only [Option.some.injEq] at h
    omega

theorem bisect_congr {keyAt keyAt' : Nat → Option Key} {key : Key} {lo hi : Nat}
    (h : ∀ i, lo ≤ i → i < hi → keyAt' i = keyAt i) :
    bisect keyAt' key lo hi = bisect keyAt key lo hi := by
  fun_induction bisect keyAt key lo hi with
  | case1 lo hi hlt mid hnone => grind [bisect, h mid (by omega) (by omega)]
  | case2 lo hi hlt mid hk => grind [bisect, h mid (by omega) (by omega)]
  | case3 lo hi hlt mid k hk hne hlt' ih =>
    rw [← ih fun i h₁ h₂ => h i (by omega) h₂]
    grind [bisect, h mid (by omega) (by omega)]
  | case4 lo hi hlt mid k hk hne hge ih =>
    rw [← ih fun i h₁ h₂ => h i h₁ (by omega)]
    grind [bisect, h mid (by omega) (by omega)]
  | case5 lo hi hge => rw [bisect, if_neg hge]

theorem lowerBound_congr {keyAt keyAt' : Nat → Option Key} {key : Key} {lo hi : Nat}
    (h : ∀ i, lo ≤ i → i < hi → keyAt' i = keyAt i) :
    lowerBound keyAt' key lo hi = lowerBound keyAt key lo hi := by
  fun_induction lowerBound keyAt key lo hi with
  | case1 lo hi hlt mid hnone => grind [lowerBound, h mid (by omega) (by omega)]
  | case2 lo hi hlt mid k hk hle ih =>
    rw [← ih fun i h₁ h₂ => h i h₁ (by omega)]
    grind [lowerBound, h mid (by omega) (by omega)]
  | case3 lo hi hlt mid k hk hgt ih =>
    rw [← ih fun i h₁ h₂ => h i (by omega) h₂]
    grind [lowerBound, h mid (by omega) (by omega)]
  | case4 lo hi hge => rw [lowerBound, if_neg hge]

namespace Page

/-- The index of `key` among the cells of a leaf and `true`, or the index where it would be
inserted and `false`. -/
def find? (p : Page) (key : Key) : Option (Nat × Bool) := bisect p.cellKey? key 0 p.count

/-- The index of the child whose subtree covers `key`: that of the first separator that is at
least `key`, or of the right child if all are smaller. -/
def findChild? (p : Page) (key : Key) : Option Nat := lowerBound p.separator? key 0 p.count

/-- The first of `n` places from `i` on where `child` is among the children. -/
def indexAmong (p : Page) (child : PageId) (i : Nat) : Nat → Option (Option Nat)
  | 0 => some none
  | n + 1 =>
    match p.child? i with
    | none => none
    | some c => if c = child then some (some i) else indexAmong p child (i + 1) n

/-- The index of `child` among the children. -/
def indexOf? (p : Page) (child : PageId) : Option (Option Nat) :=
  p.indexAmong child 0 (p.count + 1)

end Page

end PagedTable
