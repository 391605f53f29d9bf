import PagedTable.Proofs.Action.Respects
import PagedTable.Proofs.Pager.Faithful

/-!
# Accesses to pages

Whoever knows a pager only through the page count, `Pager.fetch` and `Pager.edit` cannot tell apart
pagers that a relation relates if these respect it.

* `Pager.Reads`, `Pager.Accesses`: reading, and also writing, respects the relation.
* `Pager.Closed`: accesses keep a property of pagers up, which is a relation that they respect
  (`Closed.accesses`).
* `Reachable.closed`, `Sound.closed`, `Undisturbed.closed`, `bytes_closed`, `damaged_closed`,
  `count_closed`: what is of this kind.
-/

namespace PagedTable

open PagedTable.Action

namespace Pager

/-! ## Relations -/

section Relations

variable {R : Pager → Pager → Prop}

/-- Reading pages cannot tell apart pagers that `R` relates. -/
structure Reads (R : Pager → Pager → Prop) : Prop where
  count : ∀ s s', R s s' → s.count = s'.count
  fetch : ∀ id, Respects R (fetch id)

/-- Neither reading nor writing pages can tell apart pagers that `R` relates. -/
structure Accesses (R : Pager → Pager → Prop) : Prop extends Reads R where
  edit : ∀ id change, Respects R (edit id change)

theorem Reads.node (hR : Reads R) (id : PageId) : Respects R (node id) :=
  .bind (hR.fetch id) fun _ => .bind (.ofExcept _) fun _ => .pure _

theorem Reads.allocate (hR : Reads R) : Respects R allocate :=
  .state (fun s s' h => by rw [hR.count s s' h]) fun _ => .pure _

end Relations

/-! ## Properties -/

variable {P : Pager → Prop}

/-- Accesses to pages keep `P` up. -/
structure Closed (P : Pager → Prop) : Prop where
  fetch : ∀ id, Keeps P (fetch id)
  edit : ∀ id change, Keeps P (edit id change)

theorem Closed.accesses (hP : Closed P) : Accesses (Same P) where
  count := by
    rintro s s' ⟨-, rfl⟩
    rfl
  fetch id := respects_same.mpr (hP.fetch id)
  edit id change := respects_same.mpr (hP.edit id change)

theorem Reachable.closed : Closed Reachable :=
  ⟨fun id _ h => h.fetched id, fun id change _ h => h.edited id change⟩

theorem Sound.closed : Closed Sound :=
  ⟨fun id _ h => h.fetched id, fun id change _ h => h.edited id change⟩

theorem Undisturbed.closed : Closed Undisturbed :=
  ⟨fun id _ h => h.fetched id, fun id change _ h => h.edited id change⟩

/-- What putting a page into its slot and counting a read of the file keep up. -/
theorem Closed.of_hold (hhold : ∀ s id f, P s → P (s.hold id f))
    (hcharged : ∀ s, P s → P s.charged) : Closed P := by
  have hfetch : ∀ id, Keeps P (Pager.fetch id) := by
    intro id s h
    rcases fetch_cases s id with ⟨-, _, hr⟩ | ⟨_, -, -, hr⟩ | ⟨_, -, -, -, hr⟩ | ⟨_, -, -, -, -, hr⟩
    all_goals rw [hr]
    · exact h
    · exact h
    · exact hhold _ _ _ (hcharged _ h)
    · exact hhold _ _ _ h
  refine ⟨hfetch, fun id change => respects_same.mp ?_⟩
  refine .bind (respects_same.mpr (hfetch id)) fun page => respects_same.mpr ?_
  cases change page with
  | some q => exact fun s h => hhold s id _ h
  | none => exact fun s h => hhold s id _ h

/-- Accesses leave the bytes of the file as they are. -/
theorem bytes_closed (bytes : Array UInt8) : Closed fun s => s.disk.bytes = bytes :=
  .of_hold (fun _ _ _ h => h) fun _ h => h

/-- A medium that takes all writes goes on to do so. -/
theorem damaged_closed (ids : List PageId) : Closed fun s => s.disk.damaged = ids :=
  .of_hold (fun _ _ _ h => h) fun _ h => h

/-- Pages stay in use. -/
theorem count_closed (n : Nat) : Closed fun s => n ≤ s.count :=
  .of_hold (fun s _ _ h => Nat.le_trans h (Nat.le_max_left s.count _)) fun _ h => h

/-- Loading nodes keeps up what accesses keep up. -/
theorem Closed.seen {s s' : Pager} (hP : Closed P) (h : s.Seen s') (hs : P s) : P s' := by
  induction h with
  | refl => exact hs
  | tail _ hstep ih =>
    obtain ⟨id, -, rfl⟩ := hstep
    exact hP.fetch id _ ih

end Pager

end PagedTable
