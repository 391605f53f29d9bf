import PagedTable.Proofs.Pager.Flush
import PagedTable.Proofs.Pager.Opening

/-!
# Reachable pagers

`Pager.Reachable`: the pagers that come about from opening a file, whatever bytes it holds,
whichever pages are accessed and however they are changed, and whatever else happens to the file
meanwhile.

* `Reachable.sound`: all of them are sound.
-/

namespace PagedTable

open PagedTable.Action

namespace Pager

variable {s s' : Pager} {id : PageId}

/-- A pager that a file was opened with, or that one came to be. -/
inductive Reachable : Pager → Prop where
  | opened {path : String} {bytes : Array UInt8} {s : Pager}
    (run : Pager.ofFile path bytes = .ok s) : Reachable s
  | fetched {s : Pager} (before : Reachable s) (id : PageId) : Reachable (fetch id s).2
  | edited {s : Pager} (before : Reachable s) (id : PageId) (change : Page → Option Page) :
    Reachable (edit id change s).2
  | flushed {s : Pager} (before : Reachable s) : Reachable (flush s).2
  /-- The file is changed behind the pager's back, or its medium fails elsewhere than before. -/
  | disturbed {s : Pager} (before : Reachable s) (bytes : Array UInt8) (damaged : List PageId) :
    Reachable { s with disk := { s.disk with bytes, damaged } }

theorem frame?_holding (disk : Disk) {n : Nat} (hn : n ≤ maxPages) (window : Array UInt8)
    (id : PageId) : (holding disk n window).frame? id =
      if id.index < n then some { page := Page.ofBytesAt window id.offset } else none := by
  unfold frame? holding
  dsimp only
  by_cases hid : id.index < maxPages
  · rw [Vector.getElem?_eq_getElem hid, Vector.getElem_ofFn]
    rfl
  · rw [Vector.getElem?_eq_none (Nat.le_of_not_lt hid), if_neg (by omega)]
    rfl

theorem Sound.holding {disk : Disk} {n : Nat} (window : Array UInt8) (hpages : disk.pages.toNat ≤ n)
    (hn : n ≤ maxPages) : (holding disk n window).Sound := by
  refine ⟨fun {id f} h => ?_, hpages, hn⟩
  rw [frame?_holding disk hn] at h
  show id.index < n
  by_contra hid
  rw [if_neg hid] at h
  cases h

/-- The pager of a file that has just been opened caches the first pages of the file, all that it is
known to have. -/
theorem ofFile_eq_holding {path : String} {bytes : Array UInt8}
    (h : Pager.ofFile path bytes = .ok s) :
    ∃ disk n window, s = holding disk n window ∧ disk.bytes = bytes ∧ disk.pages.toNat ≤ n ∧
      n ≤ maxPages := by
  have hopened := ofFile_opened path bytes
  rw [h] at hopened
  cases hopened with
  | opened _ room =>
    exact ⟨_, _, _, rfl, rfl, Nat.le_of_eq UInt32.toNat_ofNat', room⟩

theorem sound_of_ofFile {path : String} {bytes : Array UInt8}
    (h : Pager.ofFile path bytes = .ok s) : s.Sound := by
  obtain ⟨disk, n, window, rfl, -, hpages, hn⟩ := ofFile_eq_holding h
  exact .holding _ hpages hn

/-- Opening a file leaves its bytes as they are. -/
theorem bytes_of_ofFile {path : String} {bytes : Array UInt8}
    (h : Pager.ofFile path bytes = .ok s) : s.disk.bytes = bytes := by
  obtain ⟨disk, n, window, rfl, hbytes, -⟩ := ofFile_eq_holding h
  exact hbytes

theorem Sound.edited (h : s.Sound) (id : PageId) (g : Page → Option Page) :
    (edit id g s).2.Sound := by
  rcases edited_cases s id g with ⟨-, hs⟩ | ⟨f, q, hv, -, hs⟩
  · rw [hs]
    exact h
  · rw [hs]
    exact h.wrote (index_lt_of_view hv) q

/-- **Every pager that comes about is sound.** -/
theorem Reachable.sound (h : Reachable s) : s.Sound := by
  induction h with
  | opened run => exact sound_of_ofFile run
  | fetched _ id ih => exact ih.fetched id
  | edited _ id g ih => exact ih.edited id g
  | flushed _ ih => exact (flush_kept ih).1.sound ih
  | disturbed _ bytes damaged ih => exact ⟨ih.cached_lt, ih.pages_le, ih.count_le⟩

end Pager

end PagedTable
