import PagedTable.Proofs.Pager.Access

/-!
# Pages that were never accessed

`Pager.History ids s`: the pager `s` came about by accesses to the pages `ids`. Whatever the
history, pages from the page count on are untouched: they are neither cached nor in the file, and
no access ever asked for them.

* `Reachable.untouched`: so the next page that is taken is always a new one.
-/

namespace PagedTable

open PagedTable.Action

namespace Pager

variable {s : Pager} {id : PageId} {ids : List PageId}

/-- A way for a pager to come about, with the pages that accesses asked for, the last one first. -/
inductive History : List PageId → Pager → Prop where
  | opened {path : String} {bytes : Array UInt8} {s : Pager}
    (run : Pager.ofFile path bytes = .ok s) : History [] s
  | fetched {ids : List PageId} {s : Pager} (before : History ids s) (id : PageId) :
    History (id :: ids) (fetch id s).2
  | edited {ids : List PageId} {s : Pager} (before : History ids s) (id : PageId)
    (change : Page → Option Page) : History (id :: ids) (edit id change s).2
  | flushed {ids : List PageId} {s : Pager} (before : History ids s) : History ids (flush s).2
  | disturbed {ids : List PageId} {s : Pager} (before : History ids s) (bytes : Array UInt8)
    (damaged : List PageId) : History ids { s with disk := { s.disk with bytes, damaged } }

/-- Every pager that comes about has a history. -/
theorem reachable_iff_history : Reachable s ↔ ∃ ids, History ids s := by
  constructor
  · intro h
    induction h with
    | opened run => exact ⟨[], .opened run⟩
    | fetched _ id ih => exact ih.elim fun ids h => ⟨id :: ids, h.fetched id⟩
    | edited _ id change ih => exact ih.elim fun ids h => ⟨id :: ids, h.edited id change⟩
    | flushed _ ih => exact ih.elim fun ids h => ⟨ids, h.flushed⟩
    | disturbed _ bytes damaged ih => exact ih.elim fun ids h => ⟨ids, h.disturbed bytes damaged⟩
  · rintro ⟨ids, h⟩
    induction h with
    | opened run => exact .opened run
    | fetched _ id ih => exact ih.fetched id
    | edited _ id change ih => exact ih.edited id change
    | flushed _ ih => exact ih.flushed
    | disturbed _ bytes damaged ih => exact ih.disturbed bytes damaged

/-- A page that was asked for counts, also when the file turns out to end before it. -/
theorem Sound.index_lt_fetched (hs : s.Sound) (hid : id.index < maxPages) :
    id.index < (s.fetched id).count := by
  cases hv : s.view id with
  | some f =>
    rw [hs.count_fetched hv]
    omega
  | none =>
    rw [fetched_of_view_none hv]
    unfold view at hv
    rw [if_neg (Nat.not_le.mpr hid)] at hv
    cases hf : s.frame? id with
    | some f => exact hs.cached_lt hf
    | none =>
      rw [hf] at hv
      dsimp only at hv
      split at hv
      · rename_i hn
        exact Nat.lt_of_lt_of_le (UInt32.lt_iff_toNat_lt.mp hn) hs.pages_le
      · cases hv

theorem Sound.index_lt_edited (hs : s.Sound) (hid : id.index < maxPages)
    (change : Page → Option Page) : id.index < (edit id change s).2.count := by
  have hfetched := hs.index_lt_fetched hid
  unfold edit
  cases hv : s.view id with
  | none =>
    obtain ⟨e, he⟩ := fetch_error hv
    rw [bind_error he]
    rwa [fetched_of_view_none hv] at hfetched
  | some f =>
    rw [bind_ok (fetch_run hv)]
    have hle : id.index < max (s.fetched id).count (id.index + 1) :=
      Nat.lt_of_lt_of_le (Nat.lt_succ_self _) (Nat.le_max_right _ _)
    cases change f.page with
    | some q => exact hle
    | none => exact hle

/-- **Pages that were asked for are in use.** -/
theorem History.index_lt (h : History ids s) (hmem : id ∈ ids) (hid : id.index < maxPages) :
    id.index < s.count := by
  have hreach : ∀ {ids s}, History ids s → s.Sound := fun h =>
    (reachable_iff_history.mpr ⟨_, h⟩).sound
  induction h with
  | opened => cases hmem
  | @fetched ids s before j ih =>
    rcases List.mem_cons.mp hmem with rfl | hmem
    · exact (hreach before).index_lt_fetched hid
    · exact (count_closed (id.index + 1)).fetch j s (ih hmem)
  | @edited ids s before j change ih =>
    rcases List.mem_cons.mp hmem with rfl | hmem
    · exact (hreach before).index_lt_edited hid change
    · exact (count_closed (id.index + 1)).edit j change s (ih hmem)
  | @flushed ids s before ih =>
    rw [(flush_kept (hreach before)).1.count]
    exact ih hmem
  | disturbed before bytes damaged ih => exact ih hmem

/-- The page is neither cached nor in the file, and no access has asked for it. -/
structure Untouched (s : Pager) (id : PageId) : Prop where
  not_cached : s.frame? id = none
  not_in_file : s.disk.pages.toNat ≤ id.index
  notMem : ∀ {ids}, History ids s → id ∉ ids

/-- **Pages from the page count on are untouched.** -/
theorem Reachable.untouched (h : Reachable s) (hid : id.index < maxPages)
    (hcount : s.count ≤ id.index) : s.Untouched id := by
  refine ⟨?_, Nat.le_trans h.sound.pages_le hcount, fun hhist hmem => ?_⟩
  · by_contra hne
    obtain ⟨f, hf⟩ := Option.ne_none_iff_exists'.mp hne
    exact absurd (h.sound.cached_lt hf) (Nat.not_lt.mpr hcount)
  · exact absurd (hhist.index_lt hmem hid) (Nat.not_lt.mpr hcount)

end Pager

end PagedTable
