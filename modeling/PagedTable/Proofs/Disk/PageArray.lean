import PagedTable.Proofs.Pager.Faithful
import PagedTable.Proofs.Pager.PageCount

/-!
# A file is an array of pages that grows

Writing a page beyond the end of a file makes the file longer, and pages of zero bytes fill the gap.
Any other page is left as it is, so a file is an array of pages, as long as 32 bits can count them.

* `PageArray.put`: the array after a page was written. `Disk.Stores`: the file is the array.
* `Stores.writeBytes_run`, `Stores.writeAll_run`: one write and any number of them.
* `Stores.readPages_eq_ok_iff`: reading several pages at once is reading them one by one.
* `ofFile_writeAll_run`: what a file holds after writes.
-/

namespace PagedTable

open PagedTable.Action

namespace Page

variable {bytes : Array UInt8} {off : Nat}

/-- The bytes of pages, one page behind the other. -/
def join : List Page → Array UInt8
  | [] => #[]
  | p :: pages => p.toArray ++ join pages

/-- A page that the bytes do not end before is a part of them. -/
theorem toArray_ofBytesAt (h : off + pageSize ≤ bytes.size) :
    (ofBytesAt bytes off).toArray = bytes.extract off (off + pageSize) := by
  refine Array.ext ?_ fun i hi hi' => ?_
  · rw [Vector.size_toArray, Array.size_extract]
    omega
  · have hlt : off + i < bytes.size := by
      rw [Vector.size_toArray] at hi
      omega
    simp only [ofBytesAt, Vector.getElem_toArray, Vector.getElem_ofFn, Array.getElem_extract]
    simp [Array.getD_eq_getD_getElem?, hlt]

/-- Bytes that are read as pages are the bytes of these pages. -/
theorem extract_eq_join {pages : List Page} (h : off + pages.length * pageSize ≤ bytes.size)
    (hpages : ∀ i (hi : i < pages.length), ofBytesAt bytes (off + i * pageSize) = pages[i]) :
    bytes.extract off (off + pages.length * pageSize) = join pages := by
  induction pages generalizing off with
  | nil =>
    rw [join, List.length_nil, Nat.zero_mul, Nat.add_zero]
    exact Array.extract_empty_of_stop_le_start (Nat.le_refl off)
  | cons p pages ih =>
    have hlength : (p :: pages).length * pageSize = pageSize + pages.length * pageSize := by
      rw [List.length_cons, Nat.succ_mul, Nat.add_comm]
    rw [hlength, ← Nat.add_assoc] at h ⊢
    have hfirst : ofBytesAt bytes off = p := by simpa using hpages 0 (Nat.succ_pos _)
    have hrest : bytes.extract (off + pageSize) (off + pageSize + pages.length * pageSize) =
        join pages := by
      refine ih h fun i hi => ?_
      have hnext := hpages (i + 1) (Nat.succ_lt_succ hi)
      rwa [Nat.succ_mul, Nat.add_comm (i * pageSize), ← Nat.add_assoc] at hnext
    have hwithin : off + pageSize ≤ bytes.size := by omega
    rw [join, ← hrest, ← hfirst, toArray_ofBytesAt hwithin, Array.extract_append_extract,
      Nat.min_eq_left (Nat.le_add_right _ _), Nat.max_eq_right (Nat.le_add_right _ _)]

end Page

/-! ## The array -/

namespace PageArray

variable {pages : List Page} {id : PageId} {p : Page}

/-- An array of pages after a page was written. If the array ends before it, pages of zero bytes
fill the gap. -/
def put (pages : List Page) (id : PageId) (p : Page) : List Page :=
  (pages ++ List.replicate (id.index + 1 - pages.length) Page.zero).set id.index p

/-- An array of pages after pages were written one after another. -/
def putAll (pages : List Page) (writes : List (PageId × Page)) : List Page :=
  writes.foldl (fun pages w => put pages w.1 w.2) pages

/-- The pages of a file. -/
def pagesOf (bytes : Array UInt8) : List Page :=
  (List.range (bytes.size / pageSize)).map fun i => Page.ofBytesAt bytes (i * pageSize)

/-- What was written last to a page, if anything was. -/
def lastWrite? (writes : List (PageId × Page)) (id : PageId) : Option Page :=
  ((writes.filter (·.1 = id)).getLast?).map Prod.snd

theorem length_pagesOf (bytes : Array UInt8) : (pagesOf bytes).length = bytes.size / pageSize := by
  rw [pagesOf, List.length_map, List.length_range]

theorem getD_pagesOf {bytes : Array UInt8} (hwhole : bytes.size % pageSize = 0) (i : Nat) :
    (pagesOf bytes).getD i Page.zero = Page.ofBytesAt bytes (i * pageSize) := by
  rw [List.getD_eq_getElem?_getD]
  by_cases hi : i < bytes.size / pageSize
  · rw [pagesOf, List.getElem?_map, List.getElem?_range hi]
    rfl
  · rw [List.getElem?_eq_none (length_pagesOf bytes ▸ Nat.le_of_not_lt hi)]
    refine (Page.ofBytesAt_of_size_le ?_).symm
    rw [← Nat.div_mul_cancel (Nat.dvd_of_mod_eq_zero hwhole)]
    exact Nat.mul_le_mul_right _ (Nat.le_of_not_lt hi)

theorem length_put : (put pages id p).length = max pages.length (id.index + 1) := by
  rw [put, List.length_set, List.length_append, List.length_replicate]
  omega

/-- The array is read as if pages of zero bytes went on for ever behind its end. -/
theorem getD_put (i : Nat) :
    (put pages id p).getD i Page.zero = if i = id.index then p else pages.getD i Page.zero := by
  have hfill : ∀ n, (pages ++ List.replicate n Page.zero).getD i Page.zero =
      pages.getD i Page.zero := fun n => by
    simp only [List.getD_eq_getElem?_getD, List.getElem?_append, List.getElem?_replicate]
    split
    · rfl
    · rename_i hi
      rw [List.getElem?_eq_none (Nat.le_of_not_lt hi)]
      split <;> rfl
  rw [List.getD_eq_getElem?_getD, put, List.getElem?_set]
  by_cases hi : id.index = i
  · rw [if_pos hi, if_pos hi.symm, if_pos]
    · rfl
    · rw [List.length_append, List.length_replicate]
      omega
  · rw [if_neg hi, if_neg (Ne.symm hi), ← List.getD_eq_getElem?_getD, hfill]

theorem length_putAll (writes : List (PageId × Page)) :
    (putAll pages writes).length =
      writes.foldl (fun n w => max n (w.1.index + 1)) pages.length := by
  induction writes generalizing pages with
  | nil => rfl
  | cons w writes ih =>
    rw [putAll, List.foldl_cons, List.foldl_cons, ← length_put (p := w.2)]
    exact ih

/-- The array has the pages that it had and those that were written. -/
theorem index_lt_length_putAll {writes : List (PageId × Page)}
    (h : id.index < pages.length ∨ ∃ p, (id, p) ∈ writes) :
    id.index < (putAll pages writes).length := by
  induction writes generalizing pages with
  | nil => simpa [putAll] using h
  | cons w writes ih =>
    rw [putAll, List.foldl_cons]
    refine ih ?_
    rw [length_put]
    obtain hlt | ⟨p, hp⟩ := h
    · exact .inl (by omega)
    · obtain rfl | hp := List.mem_cons.mp hp
      · exact .inl (Nat.lt_of_lt_of_le (Nat.lt_succ_self _) (Nat.le_max_right _ _))
      · exact .inr ⟨p, hp⟩

theorem mem_of_lastWrite? {writes : List (PageId × Page)} (h : lastWrite? writes id = some p) :
    (id, p) ∈ writes := by
  obtain ⟨w, hw, rfl⟩ := Option.map_eq_some_iff.mp h
  obtain ⟨hmem, hid⟩ := List.mem_filter.mp (List.mem_of_getLast? hw)
  rwa [← of_decide_eq_true hid]

/-- The last write to a page is what counts. -/
theorem getD_putAll (writes : List (PageId × Page)) (id : PageId) :
    (putAll pages writes).getD id.index Page.zero =
      (lastWrite? writes id).getD (pages.getD id.index Page.zero) := by
  induction writes generalizing pages with
  | nil => rfl
  | cons w writes ih =>
    rw [putAll, List.foldl_cons]
    refine ih.trans ?_
    rw [getD_put]
    unfold lastWrite?
    by_cases hw : w.1 = id
    · rw [if_pos (by rw [hw]), List.filter_cons_of_pos (by simpa using hw), List.getLast?_cons]
      cases (writes.filter (·.1 = id)).getLast? <;> rfl
    · rw [if_neg fun h => hw (PageId.index_inj.mp h).symm,
        List.filter_cons_of_neg (by simpa using hw)]

end PageArray

namespace Disk

open PageArray

variable {d : Disk} {pages : List Page} {id : PageId} {p : Page} {bytes : Array UInt8}

/-- Writes pages one after another. -/
def writeAll (writes : List (PageId × Page)) : Action Disk Unit :=
  writes.forM fun w => writeBytes w.1 w.2.toArray

/-! ## The file -/

/-- The file is an array of pages, and its page count is their number. -/
structure Stores (d : Disk) (pages : List Page) : Prop where
  size_eq : d.bytes.size = pages.length * pageSize
  count_eq : d.pages.toNat = pages.length
  page_eq : ∀ i, Page.ofBytesAt d.bytes (i * pageSize) = pages.getD i Page.zero

/-- A file of whole pages that 32 bits can count is the array of its pages. -/
theorem Stores.ofFile (path : String) (hwhole : bytes.size % pageSize = 0)
    (hfits : bytes.size < countLimit) :
    ∃ d, Disk.ofFile path bytes = .ok d ∧ d.Stores (pagesOf bytes) := by
  have hsize := (Nat.div_mul_cancel (Nat.dvd_of_mod_eq_zero hwhole)).symm
  refine ⟨_, ofFile_of_pages path hsize, ?_, ?_, fun i => (getD_pagesOf hwhole i).symm⟩
  · rw [length_pagesOf]
    exact hsize
  · rw [length_pagesOf]
    exact UInt32.toNat_ofNat_of_lt' (Nat.div_lt_of_lt_mul (Nat.mul_comm _ _ ▸ hfits))

/-- The medium has nothing to do with what is in the file. -/
theorem Stores.worn (h : d.Stores pages) (damaged : List PageId) :
    ({ d with damaged } : Disk).Stores pages := ⟨h.size_eq, h.count_eq, h.page_eq⟩

/-- A page that the medium takes is written. -/
theorem writeBytes_run (hid : id.index + 1 < UInt32.size) (hmedium : id ∉ d.damaged) :
    writeBytes id p.toArray d = (.ok (), { d with
      bytes := splice d.bytes id.offset p.toList
      pages := max d.pages (id.number + 1)
      writes := d.writes + 1 }) := by
  have hpage : Page.ofBytes? p.toArray = some p := dif_pos p.size_toArray
  unfold writeBytes writePage
  rw [hpage, bind_ok (need_some_apply p d), bind_ok (state_apply d), if_neg hmedium,
    bind_ok (replace_apply _ _), bind_ok (require_apply_of hid _)]
  rfl

/-- **One write.** -/
theorem Stores.writeBytes_run (h : d.Stores pages) (hid : id.index + 1 < UInt32.size)
    (hmedium : id ∉ d.damaged) (p : Page) :
    ∃ d', writeBytes id p.toArray d = (.ok (), d') ∧ d'.damaged = d.damaged ∧
      d'.Stores (put pages id p) := by
  refine ⟨_, Disk.writeBytes_run hid hmedium, rfl, ?_, ?_, fun i => ?_⟩
  · have hlen : p.toList.length = pageSize := p.size_toArray
    rw [size_splice, hlen, h.size_eq, length_put, PageId.offset, ← Nat.succ_mul,
      Nat.mul_max_mul_right]
  · rw [PageId.toNat_max_succ d.pages hid, h.count_eq, length_put]
  · rw [getD_put]
    by_cases hi : i = id.index
    · rw [if_pos hi, hi]
      exact Page.ofBytesAt_splice_self d.bytes id.offset p
    · rw [if_neg hi, ← h.page_eq]
      refine Page.ofBytesAt_splice_of_disjoint _ ?_
      have hlen : p.toList.length = pageSize := p.size_toArray
      rw [hlen]
      show i * 4096 + 4096 ≤ id.index * 4096 ∨ id.index * 4096 + 4096 ≤ i * 4096
      omega

/-- **Any number of writes.** -/
theorem Stores.writeAll_run {writes : List (PageId × Page)} (h : d.Stores pages)
    (hwrites : ∀ w ∈ writes, w.1.index + 1 < UInt32.size ∧ w.1 ∉ d.damaged) :
    ∃ d', writeAll writes d = (.ok (), d') ∧ d'.Stores (putAll pages writes) := by
  induction writes generalizing d pages with
  | nil => exact ⟨d, rfl, h⟩
  | cons w writes ih =>
    obtain ⟨⟨hid, hmedium⟩, hrest⟩ := List.forall_mem_cons.mp hwrites
    obtain ⟨d₁, hrun, hdamaged, h₁⟩ := h.writeBytes_run hid hmedium w.2
    rw [← hdamaged] at hrest
    obtain ⟨d', hlast, h'⟩ := ih h₁ hrest
    exact ⟨d', (bind_ok hrun).trans hlast, h'⟩

/-! ## Reading -/

/-- The file does not end before the pages that it has. -/
theorem Stores.within_iff (h : d.Stores pages) :
    id.offset + pageSize ≤ d.bytes.size ↔ id.index < pages.length := by
  rw [h.size_eq, PageId.offset, ← Nat.succ_mul, Nat.mul_le_mul_right_iff (by decide)]
  exact Nat.succ_le_iff

/-- Reading a page of the array. -/
theorem Stores.readPage_run (h : d.Stores pages) (hid : id.index < pages.length) :
    readPage id d =
      (.ok (pages.getD id.index Page.zero), { d with reads := d.reads + 1 }) := by
  rw [Pager.readPage_run (h.within_iff.mpr hid), PageId.offset, h.page_eq]

/-- A page is read exactly if the array has it. -/
theorem Stores.readPage_eq_ok_iff (h : d.Stores pages) :
    (readPage id d).1 = .ok p ↔ id.index < pages.length ∧ p = pages.getD id.index Page.zero := by
  by_cases hid : id.index < pages.length
  · rw [h.readPage_run hid]
    exact ⟨fun heq => ⟨hid, (Except.ok.inj heq).symm⟩, fun ⟨_, heq⟩ => congrArg Except.ok heq.symm⟩
  · rw [Pager.readPage_short (mt h.within_iff.mp hid)]
    exact ⟨(fun heq => nomatch heq), fun heq => absurd heq.1 hid⟩

/-- Reading page by page from `start` on answers `pages`. -/
def ReadsEach (d : Disk) (start : PageId) (pages : List Page) : Prop :=
  ∀ i (h : i < pages.length),
    ∃ id : PageId, id.index = start.index + i ∧ (readPage id d).1 = .ok pages[i]

/-- The pages that are read one by one are in the array, up to the last of them. -/
theorem Stores.readsEach_iff {start : PageId} {read : List Page} (h : d.Stores pages)
    (hread : 1 ≤ read.length) :
    d.ReadsEach start read ↔ start.index + read.length ≤ pages.length ∧
      ∀ i (hi : i < read.length), read[i] = pages.getD (start.index + i) Page.zero := by
  constructor
  · intro heach
    refine ⟨?_, fun i hi => ?_⟩
    · obtain ⟨id, hid, hlast⟩ := heach (read.length - 1) (by omega)
      have hlt := (h.readPage_eq_ok_iff.mp hlast).1
      omega
    · obtain ⟨id, hid, hpage⟩ := heach i hi
      rw [← hid]
      exact (h.readPage_eq_ok_iff.mp hpage).2
  · rintro ⟨hend, hpages⟩ i hi
    have hlt : start.index + i < pages.length := by omega
    have hnumber : (PageId.ofIndex (start.index + i)).index = start.index + i :=
      PageId.index_ofIndex (Nat.lt_trans hlt (h.count_eq ▸ d.pages.toNat_lt_size))
    exact ⟨_, hnumber, h.readPage_eq_ok_iff.mpr (hnumber.symm ▸ ⟨hlt, hpages i hi⟩)⟩

/-- Reading pages at once answers their bytes, unless the file ends before the last of them. -/
theorem readPages_run (start : PageId) {count : Nat} (hcount : 1 ≤ count) (d : Disk) :
    readPages start count (count * pageSize) d =
      if start.offset + count * pageSize ≤ d.bytes.size then
        (.ok (d.bytes.extract start.offset (start.offset + count * pageSize)),
          { d with reads := d.reads + 1 })
      else (.error (.refused (.corruptFile (.shortRead (count * pageSize) start))), d) := by
  have hroom : ¬ count * pageSize = 0 := Nat.ne_of_gt (Nat.mul_pos hcount (by decide))
  unfold readPages
  rw [bind_ok (require_apply_of rfl d), bind_ok (state_apply d)]
  simp only [hroom, false_or]
  split <;> rfl

/-- The pages of the array from `start` on, if it has as many. -/
theorem Stores.extract_eq_join {start : PageId} {read : List Page} (h : d.Stores pages)
    (hend : start.index + read.length ≤ pages.length)
    (hpages : ∀ i (hi : i < read.length), read[i] = pages.getD (start.index + i) Page.zero) :
    d.bytes.extract start.offset (start.offset + read.length * pageSize) = Page.join read := by
  refine Page.extract_eq_join ?_ fun i hi => ?_
  · rw [h.size_eq, PageId.offset, ← Nat.add_mul]
    exact Nat.mul_le_mul_right _ hend
  · rw [PageId.offset, ← Nat.add_mul, h.page_eq, hpages i hi]

/-- **Reading pages at once** answers what reading them one by one answers. It is refused if one of
them is. -/
theorem Stores.readPages_eq_ok_iff (h : d.Stores pages) (start : PageId) {count : Nat}
    (hcount : 1 ≤ count) (all : Array UInt8) :
    (readPages start count (count * pageSize) d).1 = .ok all ↔
      ∃ read : List Page, read.length = count ∧ d.ReadsEach start read ∧ all = Page.join read := by
  have hwithin : start.offset + count * pageSize ≤ d.bytes.size ↔
      start.index + count ≤ pages.length := by
    rw [h.size_eq, PageId.offset, ← Nat.add_mul, Nat.mul_le_mul_right_iff (by decide)]
  rw [readPages_run start hcount d]
  constructor
  · intro hall
    split at hall
    · rename_i hend
      obtain ⟨read, rfl, hpages⟩ : ∃ read : List Page, read.length = count ∧
          ∀ i (hi : i < read.length), read[i] = pages.getD (start.index + i) Page.zero :=
        ⟨(List.range count).map fun i => pages.getD (start.index + i) Page.zero,
          by simp only [List.length_map, List.length_range], fun i hi => by
            rw [List.getElem_map, List.getElem_range]⟩
      have hend := hwithin.mp hend
      exact ⟨read, rfl, (h.readsEach_iff hcount).mpr ⟨hend, hpages⟩,
        (Except.ok.inj hall).symm.trans (h.extract_eq_join hend hpages)⟩
    · cases hall
  · rintro ⟨read, rfl, heach, rfl⟩
    obtain ⟨hend, hpages⟩ := (h.readsEach_iff hcount).mp heach
    rw [if_pos (hwithin.mpr hend), h.extract_eq_join hend hpages]

/-! ## From a file -/

/-- What a disk answers after pages were written to the file `bytes`. -/
structure Grown (bytes : Array UInt8) (writes : List (PageId × Page)) (d : Disk) : Prop where
  /-- The file has whole pages, as many as are counted. -/
  size_eq : d.bytes.size = d.pages.toNat * pageSize
  /-- It reaches to its old end or to the end of the furthest page that was written. -/
  count_eq : d.pages.toNat =
    writes.foldl (fun n w => max n (w.1.index + 1)) (bytes.size / pageSize)
  /-- A page that was written is what was written last. -/
  written : ∀ id p, lastWrite? writes id = some p →
    readPage id d = (.ok p, { d with reads := d.reads + 1 })
  /-- Any other page that the file had is as it was. -/
  original : ∀ id, lastWrite? writes id = none → id.offset + pageSize ≤ bytes.size →
    readPage id d = (.ok (Page.ofBytesAt bytes id.offset), { d with reads := d.reads + 1 })
  /-- A page between the old end and the new one has zero bytes. -/
  gap : ∀ id, lastWrite? writes id = none → bytes.size ≤ id.offset →
    id.offset + pageSize ≤ d.bytes.size →
    readPage id d = (.ok Page.zero, { d with reads := d.reads + 1 })
  /-- A page is refused exactly if the file ends before it. -/
  beyond : ∀ id, (∃ flaw, (readPage id d).1 = .error (.refused (.corruptFile flaw))) ↔
    d.bytes.size < id.offset + pageSize
  /-- Pages that are read at once are those that are read one by one. -/
  bulk : ∀ start count, 1 ≤ count → ∀ all,
    (readPages start count (count * pageSize) d).1 = .ok all ↔
      ∃ read : List Page, read.length = count ∧ d.ReadsEach start read ∧ all = Page.join read
  /-- They are refused together. -/
  bulk_beyond : ∀ start count, 1 ≤ count →
    (∃ all, (readPages start count (count * pageSize) d).1 = .ok all) ∨
    readPages start count (count * pageSize) d =
      (.error (.refused (.corruptFile (.shortRead (count * pageSize) start))), d)

/-- What writes leave of the array of a file is what the disk answers. -/
theorem Stores.grown {writes : List (PageId × Page)} (hwhole : bytes.size % pageSize = 0)
    (h : d.Stores (putAll (pagesOf bytes) writes)) : d.Grown bytes writes := by
  have hold : ∀ {id : PageId}, id.offset + pageSize ≤ bytes.size ↔
      id.index < (pagesOf bytes).length := fun {id} => by
    rw [length_pagesOf, PageId.offset, ← Nat.succ_mul]
    exact (Nat.le_div_iff_mul_le (by decide)).symm.trans Nat.succ_le_iff
  refine ⟨h.count_eq ▸ h.size_eq, ?_, fun id p hlast => ?_, fun id hlast hid => ?_,
    fun id hlast hbehind hid => ?_, fun id => ?_, fun start count hcount => ?_,
    fun start count hcount => ?_⟩
  · rw [h.count_eq, length_putAll, length_pagesOf]
  · rw [h.readPage_run (index_lt_length_putAll (.inr ⟨p, mem_of_lastWrite? hlast⟩)), getD_putAll,
      hlast]
    rfl
  · rw [h.readPage_run (index_lt_length_putAll (.inl (hold.mp hid))), getD_putAll, hlast,
      getD_pagesOf hwhole]
    rfl
  · rw [h.readPage_run (h.within_iff.mp hid), getD_putAll, hlast, getD_pagesOf hwhole,
      ← PageId.offset, Page.ofBytesAt_of_size_le hbehind]
    rfl
  · by_cases hid : id.offset + pageSize ≤ d.bytes.size
    · rw [h.readPage_run (h.within_iff.mp hid)]
      refine ⟨fun hshort => ?_, fun hlt => absurd hid (Nat.not_le.mpr hlt)⟩
      obtain ⟨_, heq⟩ := hshort
      cases heq
    · rw [Pager.readPage_short hid]
      exact ⟨fun _ => Nat.lt_of_not_le hid, fun _ => ⟨_, rfl⟩⟩
  · exact h.readPages_eq_ok_iff start hcount
  · rw [readPages_run start hcount d]
    split
    · exact .inl ⟨_, rfl⟩
    · exact .inr rfl

/-- **A file is an array of pages that grows.** A file of whole pages that 32 bits can count is
opened, and pages are written to it one after another, each of them before the last page number and
where the medium takes it. All writes come to an end, and then a page is what was written to it
last, else what it was in the file, else zero bytes. -/
theorem ofFile_writeAll_run (path : String) (bytes : Array UInt8)
    (hwhole : bytes.size % pageSize = 0) (hfits : bytes.size < countLimit)
    (damaged : List PageId) (writes : List (PageId × Page))
    (hwrites : ∀ w ∈ writes, w.1.index + 1 < UInt32.size ∧ w.1 ∉ damaged) :
    ∃ d last, Disk.ofFile path bytes = .ok d ∧
      writeAll writes { d with damaged } = (.ok (), last) ∧ last.Grown bytes writes := by
  obtain ⟨d, hopen, hd⟩ := Stores.ofFile path hwhole hfits
  obtain ⟨last, hrun, hlast⟩ := (hd.worn damaged).writeAll_run hwrites
  exact ⟨d, last, hopen, hrun, hlast.grown hwhole⟩

/-- A file of two pages. The page behind the next three is written, then the second, then the first
again and again. -/
theorem ofFile_writeAll_run_gap :
    ∃ d last, Disk.ofFile defaultPath (Array.replicate (2 * pageSize) 7) = .ok d ∧
      writeAll [(⟨5⟩, Page.zero), (⟨1⟩, Page.zero), (⟨0⟩, Vector.replicate pageSize 1),
        (⟨0⟩, Vector.replicate pageSize 2)] { d with damaged := [⟨3⟩] } = (.ok (), last) ∧
      last.Grown (Array.replicate (2 * pageSize) 7) [(⟨5⟩, Page.zero), (⟨1⟩, Page.zero),
        (⟨0⟩, Vector.replicate pageSize 1), (⟨0⟩, Vector.replicate pageSize 2)] := by
  have hsize : (Array.replicate (2 * pageSize) (7 : UInt8)).size = 2 * pageSize :=
    Array.size_replicate
  refine ofFile_writeAll_run defaultPath _ (by rw [hsize]; decide) (by rw [hsize]; decide) [⟨3⟩] _
    fun w hw => ?_
  simp only [List.mem_cons, List.not_mem_nil, or_false] at hw
  obtain rfl | rfl | rfl | rfl := hw <;> exact ⟨by decide, by decide⟩

end Disk

end PagedTable
