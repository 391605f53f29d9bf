import PagedTable.Proofs.Pager.View

/-!
# Opening a file

A file of whole pages is opened as a disk, and as a pager if it has few enough of them. Their number
is known with 32 bits: a pager holds the first pages of a file, as many as 32 bits keep of it.

* `Disk.ofFile_of_pages`, `Disk.ofFile_of_torn`: opening a disk.
* `Pager.Opened`: all that opening a pager can come to. `Pager.ofFile_opened`: it comes to that.
* `Pager.Opened.ok_iff`: which files are opened.
-/

namespace PagedTable

open PagedTable.Action

/-- The fewest bytes of more pages than 32 bits can count. -/
abbrev countLimit : Nat := UInt32.size * pageSize

namespace Disk

variable {n : Nat} {bytes : Array UInt8}

theorem exists_pages (h : bytes.size % pageSize = 0) : ∃ n, bytes.size = n * pageSize :=
  ⟨_, (Nat.div_mul_cancel (Nat.dvd_of_mod_eq_zero h)).symm⟩

theorem ofFile_of_pages (path : String) (h : bytes.size = n * pageSize) :
    ofFile path bytes = .ok { path, bytes, pages := UInt32.ofNat n } := by
  have hdiv : bytes.size / pageSize = n := by rw [h, Nat.mul_div_cancel n (by decide)]
  unfold ofFile
  rw [hdiv, if_pos (h ▸ Nat.mul_mod_left n pageSize)]

theorem ofFile_of_torn (path : String) (h : ¬ bytes.size % pageSize = 0) :
    ofFile path bytes = .error (.corruptFile (.length path bytes.size)) := if_neg h

/-- Reading the first pages of a file. -/
theorem readPages_first {d : Disk} (h : n * pageSize ≤ d.bytes.size) :
    readPages ⟨0⟩ n (n * pageSize) d =
      (.ok (d.bytes.extract 0 (n * pageSize)), { d with reads := d.reads + 1 }) := by
  have hstart : PageId.offset ⟨0⟩ = 0 := rfl
  unfold readPages
  rw [bind_ok (require_apply_of rfl d), bind_ok (state_apply d), hstart, Nat.zero_add,
    if_pos (.inr h)]
  rfl

end Disk

namespace Pager

variable {path : String} {bytes : Array UInt8}

/-- What 32 bits keep of the number of whole pages in a file. -/
def counted (bytes : Array UInt8) : Nat := bytes.size / pageSize % UInt32.size

theorem counted_of_lt (h : bytes.size < countLimit) : counted bytes = bytes.size / pageSize :=
  Nat.mod_eq_of_lt (Nat.div_lt_of_lt_mul (Nat.mul_comm _ _ ▸ h))

/-- All that opening a file can come to. -/
inductive Opened (path : String) (bytes : Array UInt8) : Except Fault Pager → Prop where
  /-- The file does not consist of whole pages. -/
  | torn (torn : ¬ bytes.size % pageSize = 0) :
    Opened path bytes (.error (.refused (.corruptFile (.length path bytes.size))))
  /-- The file has too many pages. -/
  | crowded (whole : bytes.size % pageSize = 0) (crowded : maxPages < counted bytes) :
    Opened path bytes
      (.error (.refused (.pageOutOfBounds ⟨UInt32.ofNat (bytes.size / pageSize) - 1⟩)))
  /-- The first pages of the file are held, which are read at once if there are any. -/
  | opened (whole : bytes.size % pageSize = 0) (room : counted bytes ≤ maxPages) :
    Opened path bytes (.ok (holding
      { path, bytes, pages := UInt32.ofNat (bytes.size / pageSize),
        reads := if counted bytes = 0 then 0 else 1 }
      (counted bytes) (bytes.extract 0 (counted bytes * pageSize))))

/-- **Opening a file.** -/
theorem ofFile_opened (path : String) (bytes : Array UInt8) :
    Opened path bytes (ofFile path bytes) := by
  unfold ofFile
  by_cases hwhole : bytes.size % pageSize = 0
  · obtain ⟨n, hn⟩ := Disk.exists_pages hwhole
    have hdiv : bytes.size / pageSize = n := by rw [hn, Nat.mul_div_cancel n (by decide)]
    have hcounted : (UInt32.ofNat n).toNat = counted bytes := by
      rw [counted, hdiv, UInt32.toNat_ofNat']
    have hfirst : counted bytes * pageSize ≤ bytes.size :=
      Nat.le_trans (Nat.mul_le_mul_right pageSize (Nat.mod_le _ _)) (Nat.div_mul_le_self _ _)
    rw [Disk.ofFile_of_pages path hn]
    dsimp only
    rw [hcounted, ← hdiv]
    split
    · rename_i hcrowded
      exact .crowded hwhole hcrowded
    rename_i hroom
    have hopened := @Opened.opened path bytes hwhole (Nat.le_of_not_lt hroom)
    split
    · rename_i hnone
      rw [hnone, if_pos rfl, Nat.zero_mul, Array.extract_zero] at hopened
      exact hopened
    · rename_i hsome
      rw [if_neg hsome] at hopened
      rw [Disk.readPages_first hfirst]
      exact hopened
  · rw [Disk.ofFile_of_torn path hwhole]
    exact .torn hwhole

/-- Unless a file has too many pages to be counted, it is opened exactly if it has whole pages only,
and within the limit. -/
theorem Opened.ok_iff {result : Except Fault Pager} (h : Opened path bytes result)
    (fits : bytes.size < countLimit) :
    (∃ s, result = .ok s) ↔ bytes.size % pageSize = 0 ∧ bytes.size / pageSize ≤ maxPages := by
  have hcounted := counted_of_lt fits
  cases h with
  | torn torn => exact ⟨(fun ⟨_, h⟩ => nomatch h), fun h => absurd h.1 torn⟩
  | crowded _ crowded =>
    exact ⟨(fun ⟨_, h⟩ => nomatch h), fun h => absurd h.2 (Nat.not_le.mpr (hcounted ▸ crowded))⟩
  | opened whole room => exact ⟨fun _ => ⟨whole, hcounted ▸ room⟩, fun _ => ⟨_, rfl⟩⟩

end Pager

end PagedTable
