import PagedTable.Proofs.Pager.Flush
import PagedTable.Proofs.Pager.Opening
import PagedTable.Volume

/-!
# The page count and the file

The page count of a file is a 32-bit number: what 32 bits keep of the number of pages when the file
is opened, and then the number behind the last page that was written. It is the number of pages in
the file as long as 32 bits can hold this, and no longer. Opening a file trusts it.

* `Disk.Counts n`: the file has `n` pages, and this is the page count if 32 bits can hold it.
* `Counts.writeBytes`, `Counts.afterWrites`: one write and any number of them keep this up, also if
  they fail.
* `pageCount_exact_iff`: what the page count and opening a file tell. `pageCount_wraps` is a file
  whose pages are not counted.
-/

namespace PagedTable

open PagedTable.Action

/-- Opens the pager of a file, which is made if it is missing: what comes of it, and the volume that
is left. -/
def Volume.openPager (v : Volume) (path : String) : Except Fault Pager × Volume :=
  match v.openFile path with
  | .error cause => (.error (.refused (.io cause)), v)
  | .ok (_, bytes, v) => (Pager.ofFile path bytes, v)

/-- Opening a file that is there changes nothing, whatever it comes to. -/
theorem Volume.openPager_run {v : Volume} {path : String} {l : Location} {bytes : Array UInt8}
    (hl : v.resolve path = .ok l) (hbytes : v.read? l = some bytes) :
    v.openPager path = (Pager.ofFile path bytes, v) := by
  have hopen : v.openFile path = .ok (l, bytes, v) := by
    unfold openFile
    rw [hl]
    dsimp only [bind, Except.bind]
    rw [hbytes]
    rfl
  rw [openPager, hopen]

namespace Disk

variable {d : Disk} {n : Nat} {path : String} {bytes : Array UInt8}

/-- The file has `n` pages. This is the page count if 32 bits can hold it. -/
structure Counts (n : Nat) (d : Disk) : Prop where
  size_eq : d.bytes.size = n * pageSize
  exact : n < UInt32.size → d.pages.toNat = n

/-- The disk after buffers were written as pages one after another. Any of the writes may fail. -/
def afterWrites (d : Disk) (writes : List (PageId × Array UInt8)) : Disk :=
  writes.foldl (fun d w => (writeBytes w.1 w.2 d).2) d

/-- The page count is the number of pages in the file exactly if the file is below the limit. -/
theorem Counts.pages_iff (h : d.Counts n) :
    d.bytes.size % pageSize = 0 ∧
      (d.pages.toNat = d.bytes.size / pageSize ↔ d.bytes.size < countLimit) := by
  rw [h.size_eq, Nat.mul_div_cancel n (by decide), Nat.mul_lt_mul_right (by decide)]
  exact ⟨Nat.mul_mod_left n pageSize, fun heq => heq ▸ d.pages.toNat_lt_size, h.exact⟩

/-- The pages of a file that has just been opened. -/
theorem Counts.ofFile (h : Disk.ofFile path bytes = .ok d) : d.Counts (bytes.size / pageSize) := by
  by_cases hwhole : bytes.size % pageSize = 0
  · obtain ⟨n, hn⟩ := exists_pages hwhole
    rw [ofFile_of_pages path hn] at h
    cases h
    rw [hn, Nat.mul_div_cancel n (by decide)]
    exact ⟨hn, fun hlt => UInt32.toNat_ofNat_of_lt' hlt⟩
  · rw [ofFile_of_torn path hwhole] at h
    cases h

/-- The medium has nothing to do with the page count. -/
theorem Counts.worn (h : d.Counts n) (damaged : List PageId) :
    ({ d with damaged } : Disk).Counts n := ⟨h.size_eq, h.exact⟩

/-! ## Writes -/

/-- **One page written.** No number follows the last page number, so the page count stays when that
page is written. The file has more pages than 32 bits can count by then. -/
theorem Counts.writePage (h : d.Counts n) (id : PageId) (p : Page) :
    (Disk.writePage id p d).2.Counts (if id ∈ d.damaged then n else max n (id.index + 1)) := by
  have hlen : p.toList.length = pageSize := p.size_toArray
  have hsize : (splice d.bytes id.offset p.toList).size = max n (id.index + 1) * pageSize := by
    rw [size_splice, hlen, h.size_eq, PageId.offset, ← Nat.succ_mul, Nat.mul_max_mul_right]
  unfold Disk.writePage
  rw [bind_ok (state_apply d)]
  by_cases hdamaged : id ∈ d.damaged
  · rw [if_pos hdamaged, if_pos hdamaged]
    exact h
  rw [if_neg hdamaged, if_neg hdamaged, bind_ok (replace_apply _ _)]
  by_cases hlast : id.index + 1 < UInt32.size
  · rw [bind_ok (require_apply_of hlast _)]
    refine ⟨hsize, fun hlt => ?_⟩
    have hpages := PageId.toNat_max_succ d.pages hlast
    rw [h.exact (Nat.lt_of_le_of_lt (Nat.le_max_left _ _) hlt)] at hpages
    exact hpages
  · have hstop : require (id.index + 1 < UInt32.size) = (fail .misused : Action Disk Unit) :=
      if_neg hlast
    rw [hstop, bind_error (fail_apply _ _)]
    exact ⟨hsize, fun hlt => absurd (Nat.lt_of_le_of_lt (Nat.le_max_right _ _) hlt) hlast⟩

/-- A buffer that is no page is not written. -/
theorem Counts.writeBytes (h : d.Counts n) (id : PageId) (buffer : Array UInt8) :
    (Disk.writeBytes id buffer d).2.Counts
      (if buffer.size ≠ pageSize ∨ id ∈ d.damaged then n else max n (id.index + 1)) := by
  unfold Disk.writeBytes Page.ofBytes?
  by_cases hbuffer : buffer.size = pageSize
  · have hwritten := h.writePage id ⟨buffer, hbuffer⟩
    rw [dif_pos hbuffer, bind_ok (need_some_apply _ d)]
    simpa only [hbuffer, ne_eq, not_true_eq_false, false_or] using hwritten
  · rw [dif_neg hbuffer, if_pos (.inl hbuffer)]
    exact h

/-- **Any number of writes.** -/
theorem Counts.afterWrites (h : d.Counts n) (writes : List (PageId × Array UInt8)) :
    ∃ n, (d.afterWrites writes).Counts n := by
  induction writes generalizing d n with
  | nil => exact ⟨n, h⟩
  | cons w writes ih => exact ih (h.writeBytes w.1 w.2)

end Disk

/-- **The page count and the file.** A file is opened as a disk exactly if it has whole pages only.
It still has after any writes, and the page count is the number of these pages exactly if 32 bits
can hold it. If so, the pager is opened exactly if the pages are within the limit. Any other file is
refused, torn or crowded, and opening a file never changes it. -/
theorem pageCount_exact_iff (path : String) (bytes : Array UInt8) :
    ((∃ d, Disk.ofFile path bytes = .ok d) ↔ bytes.size % pageSize = 0) ∧
    (∀ d, Disk.ofFile path bytes = .ok d → ∀ damaged writes,
      let last := ({ d with damaged } : Disk).afterWrites writes
      last.bytes.size % pageSize = 0 ∧
        (last.pages.toNat = last.bytes.size / pageSize ↔ last.bytes.size < countLimit)) ∧
    Pager.Opened path bytes (Pager.ofFile path bytes) ∧
    (bytes.size < countLimit →
      ((∃ s, Pager.ofFile path bytes = .ok s) ↔
        bytes.size % pageSize = 0 ∧ bytes.size / pageSize ≤ maxPages)) ∧
    ∀ (v : Volume) (l : Location), v.resolve path = .ok l → v.read? l = some bytes →
      v.openPager path = (Pager.ofFile path bytes, v) := by
  have hopened := Pager.ofFile_opened path bytes
  refine ⟨⟨fun ⟨d, hd⟩ => ?_, fun hwhole => ?_⟩, fun d hd damaged writes => ?_, hopened,
    hopened.ok_iff, fun v l hl hbytes => Volume.openPager_run hl hbytes⟩
  · by_contra htorn
    rw [Disk.ofFile_of_torn path htorn] at hd
    cases hd
  · obtain ⟨n, hn⟩ := Disk.exists_pages hwhole
    exact ⟨_, Disk.ofFile_of_pages path hn⟩
  · obtain ⟨n, hlast⟩ := ((Disk.Counts.ofFile hd).worn damaged).afterWrites writes
    exact hlast.pages_iff

/-- A file of two pages, which has four when the page behind the next one is written. -/
theorem pageCount_exact_iff_two :
    ∃ d, Disk.ofFile defaultPath (Array.replicate (2 * pageSize) 0) = .ok d ∧
      (({ d with damaged := [] } : Disk).afterWrites
        [(⟨3⟩, Array.replicate pageSize 1)]).pages.toNat = 4 ∧
      (∃ s, Pager.ofFile defaultPath (Array.replicate (2 * pageSize) 0) = .ok s) ∧
      Volume.openPager ⟨[(⟨.start, defaultPath⟩, Array.replicate (2 * pageSize) 0)]⟩ defaultPath =
        (Pager.ofFile defaultPath (Array.replicate (2 * pageSize) 0),
          ⟨[(⟨.start, defaultPath⟩, Array.replicate (2 * pageSize) 0)]⟩) := by
  obtain ⟨hopen, hcount, -, hpager, hkept⟩ :=
    pageCount_exact_iff defaultPath (Array.replicate (2 * pageSize) 0)
  have hsize : (Array.replicate (2 * pageSize) (0 : UInt8)).size = 2 * pageSize :=
    Array.size_replicate
  rw [hsize] at hopen hpager
  obtain ⟨d, hd⟩ := hopen.mpr (by decide)
  have hwritten := ((Disk.Counts.ofFile hd).worn []).writeBytes ⟨3⟩ (Array.replicate pageSize 1)
  have hpages : max (2 * pageSize / pageSize) (PageId.index ⟨3⟩ + 1) = 4 := by decide
  rw [hsize, Array.size_replicate, if_neg (by simp), hpages] at hwritten
  obtain ⟨-, hexact⟩ := hcount d hd [] [(⟨3⟩, Array.replicate pageSize 1)]
  have hfour : (({ d with damaged := [] } : Disk).afterWrites
      [(⟨3⟩, Array.replicate pageSize 1)]).bytes.size = 4 * pageSize := by
    rw [Disk.afterWrites, List.foldl_cons, List.foldl_nil]
    dsimp only
    exact hwritten.size_eq
  rw [hfour] at hexact
  exact ⟨d, hd, hexact.mpr (by decide), (hpager (by decide)).mpr (by decide),
    hkept _ ⟨.start, defaultPath⟩ (by rfl) rfl⟩

/-- A file of as many pages as 32 bits can tell apart: none is counted, and the file is opened as an
empty one. -/
theorem pageCount_wraps :
    (Array.replicate countLimit (0 : UInt8)).size = UInt32.size * pageSize ∧
      (∃ d, Disk.ofFile defaultPath (Array.replicate countLimit 0) = .ok d ∧ d.pages = 0) ∧
      ∃ s, Pager.ofFile defaultPath (Array.replicate countLimit 0) = .ok s ∧ s.count = 0 := by
  have hsize : (Array.replicate countLimit (0 : UInt8)).size = UInt32.size * pageSize :=
    Array.size_replicate
  have hzero : UInt32.ofNat UInt32.size = 0 := by decide
  have hcounted : Pager.counted (Array.replicate countLimit (0 : UInt8)) = 0 := by
    rw [Pager.counted, hsize, Nat.mul_div_cancel _ (by decide), Nat.mod_self]
  refine ⟨hsize, ⟨_, Disk.ofFile_of_pages defaultPath hsize, hzero⟩, ?_⟩
  generalize hopen : Pager.ofFile defaultPath (Array.replicate countLimit 0) = result
  have hopened := Pager.ofFile_opened defaultPath (Array.replicate countLimit 0)
  rw [hopen] at hopened
  cases hopened with
  | torn torn => exact absurd (hsize ▸ Nat.mul_mod_left _ _) torn
  | crowded _ crowded => exact absurd (hcounted ▸ crowded) (by decide)
  | opened => exact ⟨_, rfl, hcounted⟩

end PagedTable
