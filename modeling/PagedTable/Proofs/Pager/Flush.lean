import PagedTable.Proofs.Pager.View

/-!
# Writing back

* `getD_splice`: the file content after a write.
* `Pager.Kept`: a pager that shows the same nodes, whatever is cached.
* `flush_kept`: writing back keeps all nodes, also when the medium fails half-way, and it comes to
  an end if the medium takes all writes.
-/

namespace PagedTable

open PagedTable.Action

/-! ## The file -/

theorem size_overlayArray (bytes : Array UInt8) (off : Nat) (new : List UInt8) :
    (overlayArray bytes off new).size = bytes.size := by
  induction new generalizing bytes off with
  | nil => rfl
  | cons b new ih => rw [overlayArray, ih, Array.size_setIfInBounds]

theorem getD_overlayArray (bytes : Array UInt8) (off : Nat) (new : List UInt8) {i : Nat}
    (h : off + new.length ≤ bytes.size) :
    (overlayArray bytes off new).getD i 0 =
      if off ≤ i ∧ i < off + new.length then new.getD (i - off) 0 else bytes.getD i 0 := by
  induction new generalizing bytes off with
  | nil =>
    rw [if_neg (by simp only [List.length_nil]; omega)]
    rfl
  | cons b new ih =>
    rw [List.length_cons] at h ⊢
    rw [overlayArray, ih _ _ (by rw [Array.size_setIfInBounds]; omega)]
    by_cases hi : off = i
    · subst hi
      rw [if_neg (by omega), if_pos (by omega)]
      simp [Array.getElem?_setIfInBounds_self_of_lt (show off < bytes.size by omega)]
    · by_cases hc : off + 1 ≤ i ∧ i < off + 1 + new.length
      · rw [if_pos hc, if_pos (by omega), show i - off = (i - (off + 1)) + 1 by omega,
          List.getD_cons_succ]
      · rw [if_neg hc, if_neg (by omega)]
        simp [Array.getElem?_setIfInBounds_ne hi]

theorem size_splice (bytes : Array UInt8) (off : Nat) (new : List UInt8) :
    (splice bytes off new).size = max bytes.size (off + new.length) := by
  rw [splice, size_overlayArray, Array.size_append, Array.size_replicate]
  omega

/-- **The file content after a write**, read as if zero bytes went on for ever behind its end. -/
theorem getD_splice (bytes : Array UInt8) (off : Nat) (new : List UInt8) (i : Nat) :
    (splice bytes off new).getD i 0 =
      if off ≤ i ∧ i < off + new.length then new.getD (i - off) 0 else bytes.getD i 0 := by
  have hfill : (bytes ++ Array.replicate (off + new.length - bytes.size) 0).getD i 0 =
      bytes.getD i 0 := by
    simp only [Array.getD_eq_getD_getElem?, Array.getElem?_append]
    split
    · rfl
    · rename_i hi
      have hnone : bytes[i]? = none := Array.getElem?_eq_none (Nat.le_of_not_lt hi)
      rw [hnone, Array.getElem?_replicate]
      split <;> rfl
  rw [splice, getD_overlayArray, hfill]
  rw [Array.size_append, Array.size_replicate]
  omega

/-- A page that was written is read back. -/
theorem Page.ofBytesAt_splice_self (bytes : Array UInt8) (off : Nat) (p : Page) :
    ofBytesAt (splice bytes off p.toList) off = p := by
  apply ext_byte
  intro i hi
  have hlen : p.toList.length = pageSize := p.size_toArray
  rw [byte_ofBytesAt _ _ hi, getD_splice, if_pos (by omega), Nat.add_sub_cancel_left, byte,
    List.getD_eq_getElem?_getD, Vector.getElem?_toList]

/-- A write beside a page leaves the page. -/
theorem Page.ofBytesAt_splice_of_disjoint (bytes : Array UInt8) {off off' : Nat} {new : List UInt8}
    (h : off' + pageSize ≤ off ∨ off + new.length ≤ off') :
    ofBytesAt (splice bytes off new) off' = ofBytesAt bytes off' := by
  apply ext_byte
  intro i hi
  rw [byte_ofBytesAt _ _ hi, byte_ofBytesAt _ _ hi, getD_splice, if_neg (by omega)]

/-- Different pages stand apart in the file. -/
theorem PageId.offset_disjoint {id j : PageId} (h : j ≠ id) :
    j.offset + pageSize ≤ id.offset ∨ id.offset + pageSize ≤ j.offset := by
  have hne : j.index ≠ id.index := fun heq => h (PageId.index_inj.mp heq)
  show j.index * 4096 + 4096 ≤ id.index * 4096 ∨ id.index * 4096 + 4096 ≤ j.index * 4096
  omega

/-- Page counts are far from the end of 32 bits. -/
theorem PageId.succ_index_lt {id : PageId} (h : id.index < maxPages) : id.index + 1 < UInt32.size :=
  Nat.lt_of_le_of_lt h (by decide)

/-- The page count after a page was written. -/
theorem PageId.toNat_max_succ (pages : UInt32) {id : PageId} (h : id.index + 1 < UInt32.size) :
    (max pages (id.number + 1)).toNat = max pages.toNat (id.index + 1) := by
  have hnext : (id.number + 1).toNat = id.index + 1 := by
    rw [UInt32.toNat_add]
    exact Nat.mod_eq_of_lt h
  show (if pages ≤ id.number + 1 then id.number + 1 else pages).toNat = _
  rw [← hnext]
  split
  case isTrue hle => exact (Nat.max_eq_right (UInt32.le_iff_toNat_le.mp hle)).symm
  case isFalse hlt =>
    rw [UInt32.le_iff_toNat_le, Nat.not_le] at hlt
    exact (Nat.max_eq_left (Nat.le_of_lt hlt)).symm

namespace Pager

variable {s s' s'' : Pager} {id j : PageId} {f : Frame} {i : Nat}

/-! ## One slot -/

/-- The pager after a page was written back. -/
def saved (s : Pager) (id : PageId) (f : Frame) : Pager :=
  { s with
    disk := { s.disk with
      bytes := splice s.disk.bytes id.offset f.page.toList
      pages := max s.disk.pages (id.number + 1)
      writes := s.disk.writes + 1 }
    slots := s.slots.setIfInBounds id.index (some { f with dirty := false }) }

theorem writePage_run {p : Page} (hid : id.index < maxPages) (s : Pager) :
    onDisk (Disk.writePage id p) s =
      if id ∈ s.disk.damaged then (.error (.refused (.io .writeFailed)), s)
      else (.ok (), { s with
        disk := { s.disk with
          bytes := splice s.disk.bytes id.offset p.toList
          pages := max s.disk.pages (id.number + 1)
          writes := s.disk.writes + 1 } }) := by
  unfold onDisk onPart Disk.writePage
  rw [bind_ok (state_apply _)]
  by_cases hd : id ∈ s.disk.damaged
  · rw [if_pos hd, if_pos hd]
    rfl
  · rw [if_neg hd, if_neg hd, bind_ok (replace_apply _ _),
      bind_ok (require_apply_of (PageId.succ_index_lt hid) _)]
    rfl

/-- The page is not dirty, or not cached at all. -/
def Clean (s : Pager) (id : PageId) : Prop := ∀ f, s.frame? id = some f → f.dirty = false

/-- All that writing back a slot can do. -/
theorem flushSlot_cases (s : Pager) (hi : i < maxPages) :
    (s.Clean (.ofIndex i) ∧ flushSlot i s = (.ok (), s)) ∨
    (∃ f, s.frame? (.ofIndex i) = some f ∧ .ofIndex i ∈ s.disk.damaged ∧
      flushSlot i s = (.error (.refused (.io .writeFailed)), s)) ∨
    (∃ f, s.frame? (.ofIndex i) = some f ∧ .ofIndex i ∉ s.disk.damaged ∧
      flushSlot i s = (.ok (), s.saved (.ofIndex i) f)) := by
  have hindex : (PageId.ofIndex i).index = i := PageId.index_ofIndex (Nat.lt_trans hi (by decide))
  have hid : (PageId.ofIndex i).index < maxPages := by rwa [hindex]
  have hwrite := fun f : Frame => writePage_run (p := f.page) hid s
  unfold flushSlot
  rw [bind_ok (state_apply s)]
  cases hf : s.frame? (.ofIndex i) with
  | none =>
    refine .inl ⟨fun _ hf' => ?_, rfl⟩
    rw [hf] at hf'
    cases hf'
  | some f =>
    dsimp only
    by_cases hdirty : f.dirty = true
    · rw [if_pos hdirty]
      by_cases hd : .ofIndex i ∈ s.disk.damaged
      · exact .inr (.inl ⟨f, rfl, hd, bind_error ((hwrite f).trans (if_pos hd))⟩)
      · refine .inr (.inr ⟨f, rfl, hd, (bind_ok ((hwrite f).trans (if_neg hd))).trans ?_⟩)
        rw [change_apply, saved, hindex]
    · rw [if_neg hdirty]
      refine .inl ⟨fun _ hf' => ?_, rfl⟩
      rw [hf] at hf'
      cases hf'
      exact Bool.eq_false_iff.mpr hdirty

theorem frame?_saved (hid : id.index < maxPages) (j : PageId) :
    (s.saved id f).frame? j = if j = id then some { f with dirty := false } else s.frame? j :=
  frame?_hold hid j

theorem pages_saved (hid : id.index < maxPages) :
    (s.saved id f).disk.pages.toNat = max s.disk.pages.toNat (id.index + 1) :=
  PageId.toNat_max_succ s.disk.pages (PageId.succ_index_lt hid)

theorem Sound.saved (h : s.Sound) (hf : s.frame? id = some f) : (s.saved id f).Sound := by
  have hid := index_lt_of_frame? hf
  have hlt := h.cached_lt hf
  have hle := h.pages_le
  refine ⟨fun {j g} hj => ?_, ?_, h.count_le⟩
  · rw [frame?_saved hid] at hj
    show j.index < s.count
    split at hj
    · rename_i heq
      rwa [heq]
    · exact h.cached_lt hj
  · rw [pages_saved hid]
    exact Nat.max_le.mpr ⟨hle, hlt⟩

theorem view_of_file (hid : id.index < maxPages) (hf : s.frame? id = none)
    (hpages : id.number < s.disk.pages) (hbytes : id.offset + pageSize ≤ s.disk.bytes.size) :
    s.view id = some { page := Page.ofBytesAt s.disk.bytes id.offset } := by
  simp only [view]
  rw [if_neg (Nat.not_le.mpr hid), hf]
  exact (if_pos hpages).trans (if_pos hbytes)

/-- A node that is not cached waits in the file. -/
theorem file_of_node? {kind : NodeKind} {p : Page} (hf : s.frame? id = none)
    (h : s.view.node? id = some (kind, p)) :
    id.number < s.disk.pages ∧ id.offset + pageSize ≤ s.disk.bytes.size ∧
      p = Page.ofBytesAt s.disk.bytes id.offset := by
  obtain ⟨⟨d, hv⟩, htag, -⟩ := View.node?_eq_some_iff.mp h
  have hid := index_lt_of_view hv
  simp only [view] at hv
  rw [if_neg (Nat.not_le.mpr hid), hf] at hv
  dsimp only at hv
  split at hv
  · rename_i hpages
    split at hv
    · rename_i hbytes
      exact ⟨hpages, hbytes, (congrArg Frame.page (Option.some.inj hv)).symm⟩
    · cases hv
  · -- A new page has no node's tag.
    cases hv
    rw [Page.tag, Page.byte_zero] at htag
    cases kind <;> cases htag

/-- A page that was written back, and every other node, is shown as before. -/
theorem node?_saved (hf : s.frame? id = some f) {x : NodeKind × Page}
    (hx : s.view.node? j = some x) : (s.saved id f).view.node? j = some x := by
  have hid := index_lt_of_frame? hf
  obtain ⟨kind, p⟩ := x
  obtain ⟨⟨d, hv⟩, htag, hcap⟩ := View.node?_eq_some_iff.mp hx
  have hjid := index_lt_of_view hv
  refine View.node?_eq_some_iff.mpr ⟨?_, htag, hcap⟩
  by_cases hj : j = id
  · subst hj
    rw [view_of_frame? hid hf] at hv
    cases hv
    exact ⟨false, view_of_frame? hid (by rw [frame?_saved hid, if_pos rfl])⟩
  · have hframe : (s.saved id f).frame? j = s.frame? j := by rw [frame?_saved hid, if_neg hj]
    cases hfr : s.frame? j with
    | some g =>
      rw [view_of_frame? hjid hfr] at hv
      exact ⟨d, by rw [view_of_frame? hjid (hframe.trans hfr), hv]⟩
    | none =>
      obtain ⟨hpages, hbytes, rfl⟩ := file_of_node? hfr hx
      refine ⟨false, ?_⟩
      have hlen : f.page.toList.length = pageSize := f.page.size_toArray
      have hpages' : j.number < (s.saved id f).disk.pages := by
        show j.number < if s.disk.pages ≤ id.number + 1 then id.number + 1 else s.disk.pages
        split
        · exact UInt32.lt_of_lt_of_le hpages (by assumption)
        · exact hpages
      have hbytes' : j.offset + pageSize ≤ (s.saved id f).disk.bytes.size := by
        show _ ≤ (splice _ _ _).size
        rw [size_splice]
        exact Nat.le_trans hbytes (Nat.le_max_left _ _)
      have hpage : Page.ofBytesAt (s.saved id f).disk.bytes j.offset =
          Page.ofBytesAt s.disk.bytes j.offset :=
        Page.ofBytesAt_splice_of_disjoint _ (hlen.symm ▸ PageId.offset_disjoint hj)
      rw [view_of_file hjid (hframe.trans hfr) hpages' hbytes', hpage]

/-! ## All slots -/

/-- The pager shows the same nodes, and as many pages are in use. -/
structure Kept (s s' : Pager) : Prop where
  sound : s.Sound → s'.Sound
  count : s'.count = s.count
  damaged : s'.disk.damaged = s.disk.damaged
  node? : ∀ {id x}, s.view.node? id = some x → s'.view.node? id = some x

theorem Kept.refl (s : Pager) : Kept s s := ⟨fun h => h, rfl, rfl, fun h => h⟩

theorem Kept.trans (h : Kept s s') (h' : Kept s' s'') : Kept s s'' :=
  ⟨fun hs => h'.sound (h.sound hs), h'.count.trans h.count, h'.damaged.trans h.damaged,
    fun hx => h'.node? (h.node? hx)⟩

theorem Kept.saved (hf : s.frame? id = some f) : Kept s (s.saved id f) :=
  ⟨fun h => h.saved hf, rfl, rfl, node?_saved hf⟩

/-- Writing back some slots keeps all nodes. On a medium that takes all writes it comes to an
end. -/
theorem flushSlots_kept {slots : List Nat} (h : ∀ i ∈ slots, i < maxPages) :
    Kept s (slots.forM flushSlot s).2 ∧
      (s.disk.damaged = [] → (slots.forM flushSlot s).1 = .ok ()) := by
  induction slots generalizing s with
  | nil => exact ⟨.refl s, fun _ => rfl⟩
  | cons i slots ih =>
    obtain ⟨hi, hslots⟩ := List.forall_mem_cons.mp h
    show Kept s ((flushSlot i >>= fun _ => slots.forM flushSlot) s).2 ∧
      (s.disk.damaged = [] → ((flushSlot i >>= fun _ => slots.forM flushSlot) s).1 = .ok ())
    rcases flushSlot_cases s hi with ⟨-, hrun⟩ | ⟨f, -, hd, hrun⟩ | ⟨f, hf, -, hrun⟩
    · rw [bind_ok hrun]
      exact ih hslots
    · rw [bind_error hrun]
      refine ⟨.refl s, fun hnil => ?_⟩
      rw [hnil] at hd
      cases hd
    · rw [bind_ok hrun]
      obtain ⟨hkept, hok⟩ := ih (s := s.saved (.ofIndex i) f) hslots
      exact ⟨(Kept.saved hf).trans hkept, hok⟩

/-- **Writing back keeps all nodes.** -/
theorem flush_kept (hs : s.Sound) :
    Kept s (flush s).2 ∧ (s.disk.damaged = [] → (flush s).1 = .ok ()) := by
  have hslots : ∀ i ∈ List.range s.count, i < maxPages := fun i hi =>
    Nat.lt_of_lt_of_le (List.mem_range.mp hi) hs.count_le
  unfold flush
  rw [bind_ok (state_apply s), bind_ok (require_apply_of hs.count_le s)]
  exact flushSlots_kept hslots

end Pager

end PagedTable
