import PagedTable.Proofs.Pager.Faithful

/-!
# Writing back that breaks off

Writing back takes the slots one by one, and stops at the first dirty page that the medium fails to
write. What it leaves is said by a function of the pager and the number of slots it came through
(`Pager.writtenBack`), so coming through them in several goes is coming through them in one.

* `Pager.writtenBack`: the dirty pages of the first slots are in the file, and clean.
* `Pager.flush_unhindered`, `Pager.flush_hindered`: writing back on a medium that takes the dirty
  pages, and on one that fails at one of them.
* `Pager.writtenBack_writtenBack`: what was written back before makes no difference in the end.
* `Pager.Interrupted`, `Pager.flush_interrupted`: what is left when a write fails, and after the
  attempts that follow.
-/

namespace PagedTable

open PagedTable.Action

/-- The file has a whole page with these bytes. -/
def Disk.Holds (d : Disk) (id : PageId) (p : Page) : Prop :=
  id.offset + pageSize ≤ d.bytes.size ∧ Page.ofBytesAt d.bytes id.offset = p

namespace Pager

variable {s s' : Pager} {id j : PageId} {f : Frame} {m n : Nat}

/-- The pager on a medium that fails to write the pages `bad`, and no others. -/
def onMedium (s : Pager) (bad : List PageId) : Pager :=
  { s with disk := { s.disk with damaged := bad } }

/-- The pager after the page in slot `i` was written back, if it was dirty. -/
def slotSaved (s : Pager) (i : Nat) : Pager :=
  match s.frame? (.ofIndex i) with
  | some f => if f.dirty then s.saved (.ofIndex i) f else s
  | none => s

/-- The pager after the dirty pages of its first `n` slots were written back. -/
def writtenBack (s : Pager) (n : Nat) : Pager := (List.range n).foldl slotSaved s

/-! ## One slot -/

theorem slotSaved_of_clean {i : Nat} (h : s.Clean (.ofIndex i)) : s.slotSaved i = s := by
  unfold slotSaved
  cases hf : s.frame? (.ofIndex i) with
  | none => rfl
  | some f =>
    dsimp only
    rw [if_neg (Bool.eq_false_iff.mp (h f hf))]

theorem slotSaved_of_dirty {i : Nat} (hf : s.frame? (.ofIndex i) = some f) (hd : f.dirty = true) :
    s.slotSaved i = s.saved (.ofIndex i) f := by
  unfold slotSaved
  rw [hf]
  exact if_pos hd

theorem clean_or_dirty (s : Pager) (id : PageId) :
    s.Clean id ∨ ∃ f, s.frame? id = some f ∧ f.dirty = true := by
  by_cases h : s.Clean id
  · exact .inl h
  · simp only [Clean, not_forall] at h
    obtain ⟨f, hf, hd⟩ := h
    exact .inr ⟨f, hf, Bool.not_eq_false _ ▸ hd⟩

/-- Of a slot's page writing back keeps the bytes; its mark goes. -/
theorem frame?_slotSaved {i : Nat} (hi : i < maxPages) (j : PageId) :
    (s.slotSaved i).frame? j =
      if j.index = i then (s.frame? j).map fun f => { f with dirty := false } else s.frame? j := by
  have hindex : (PageId.ofIndex i).index = i := PageId.index_ofIndex (Nat.lt_trans hi (by decide))
  have hj : j.index = i ↔ j = .ofIndex i := by rw [← PageId.index_inj, hindex]
  rcases clean_or_dirty s (.ofIndex i) with hclean | ⟨f, hf, hd⟩
  · rw [slotSaved_of_clean hclean]
    split
    · rename_i h
      obtain rfl := hj.mp h
      cases hf : s.frame? (.ofIndex i) with
      | none => rfl
      | some f =>
        obtain ⟨p, d⟩ := f
        cases hclean _ hf
        rfl
    · rfl
  · rw [slotSaved_of_dirty hf hd, frame?_saved (by rwa [hindex])]
    by_cases h : j = .ofIndex i
    · subst h
      rw [if_pos rfl, if_pos hindex, hf]
      rfl
    · rw [if_neg h, if_neg (mt hj.mp h)]

theorem count_slotSaved (s : Pager) (i : Nat) : (s.slotSaved i).count = s.count := by
  rcases clean_or_dirty s (.ofIndex i) with hclean | ⟨f, hf, hd⟩
  · rw [slotSaved_of_clean hclean]
  · rw [slotSaved_of_dirty hf hd]
    rfl

theorem Sound.slotSaved (h : s.Sound) (i : Nat) : (s.slotSaved i).Sound := by
  rcases clean_or_dirty s (.ofIndex i) with hclean | ⟨f, hf, hd⟩
  · rwa [slotSaved_of_clean hclean]
  · rw [slotSaved_of_dirty hf hd]
    exact h.saved hf

/-- What the medium fails at makes no difference to what is written back on another one. -/
theorem slotSaved_onMedium (s : Pager) (bad : List PageId) (i : Nat) :
    (s.onMedium bad).slotSaved i = (s.slotSaved i).onMedium bad := by
  have hframe : (s.onMedium bad).frame? (.ofIndex i) = s.frame? (.ofIndex i) := rfl
  unfold slotSaved
  rw [hframe]
  split
  · split <;> rfl
  · rfl

/-- A page that is written back is in the file. -/
theorem holds_saved_self (s : Pager) (id : PageId) (f : Frame) :
    (s.saved id f).disk.Holds id f.page := by
  refine ⟨?_, Page.ofBytesAt_splice_self _ _ _⟩
  show _ ≤ (splice _ _ _).size
  have hlen : f.page.toList.length = pageSize := f.page.size_toArray
  rw [size_splice, hlen]
  exact Nat.le_max_right _ _

/-- A page that is in the file stays there when another one is written back. -/
theorem holds_saved_of_ne {p : Page} (h : s.disk.Holds j p) (hne : j ≠ id) (f : Frame) :
    (s.saved id f).disk.Holds j p := by
  have hlen : f.page.toList.length = pageSize := f.page.size_toArray
  refine ⟨?_, ?_⟩
  · show _ ≤ (splice _ _ _).size
    rw [size_splice]
    exact Nat.le_trans h.1 (Nat.le_max_left _ _)
  · exact (Page.ofBytesAt_splice_of_disjoint _ (hlen.symm ▸ PageId.offset_disjoint hne)).trans h.2

/-! ## The first slots -/

theorem writtenBack_succ (s : Pager) (n : Nat) :
    s.writtenBack (n + 1) = (s.writtenBack n).slotSaved n := by
  rw [writtenBack, List.range_succ, List.foldl_append]
  rfl

theorem frame?_writtenBack (hn : n ≤ maxPages) (j : PageId) :
    (s.writtenBack n).frame? j =
      if j.index < n then (s.frame? j).map fun f => { f with dirty := false } else s.frame? j := by
  induction n with
  | zero => rfl
  | succ n ih =>
    rw [writtenBack_succ, frame?_slotSaved hn, ih (Nat.le_of_succ_le hn)]
    rcases Nat.lt_trichotomy j.index n with hlt | heq | hgt
    · rw [if_neg (by omega), if_pos hlt, if_pos (by omega)]
    · rw [if_pos heq, if_neg (by omega), if_pos (by omega)]
    · rw [if_neg (by omega), if_neg (by omega), if_neg (by omega)]

theorem count_writtenBack (s : Pager) (n : Nat) : (s.writtenBack n).count = s.count := by
  induction n with
  | zero => rfl
  | succ n ih => rw [writtenBack_succ, count_slotSaved, ih]

theorem Sound.writtenBack (h : s.Sound) (n : Nat) : (s.writtenBack n).Sound := by
  induction n with
  | zero => exact h
  | succ n ih =>
    rw [writtenBack_succ]
    exact ih.slotSaved n

theorem writtenBack_onMedium (s : Pager) (bad : List PageId) (n : Nat) :
    (s.onMedium bad).writtenBack n = (s.writtenBack n).onMedium bad := by
  induction n with
  | zero => rfl
  | succ n ih => rw [writtenBack_succ, writtenBack_succ, ih, slotSaved_onMedium]

theorem damaged_writtenBack (s : Pager) (n : Nat) :
    (s.writtenBack n).disk.damaged = s.disk.damaged := by
  have h : s.writtenBack n = (s.writtenBack n).onMedium s.disk.damaged :=
    writtenBack_onMedium s s.disk.damaged n
  rw [h]
  rfl

/-- **The dirty pages of the first slots** are in the file afterwards. -/
theorem holds_writtenBack (hn : n ≤ maxPages) (hf : s.frame? j = some f) (hd : f.dirty = true)
    (hj : j.index < n) : (s.writtenBack n).disk.Holds j f.page := by
  induction n with
  | zero => exact absurd hj (Nat.not_lt_zero _)
  | succ n ih =>
    have hindex : (PageId.ofIndex n).index = n := PageId.index_ofIndex (Nat.lt_trans hn (by decide))
    rw [writtenBack_succ]
    rcases Nat.lt_succ_iff_lt_or_eq.mp hj with hlt | rfl
    · have hholds := ih (Nat.le_of_succ_le hn) hlt
      have hne : j ≠ .ofIndex n := fun h => by rw [h, hindex] at hlt; exact Nat.lt_irrefl n hlt
      rcases clean_or_dirty (s.writtenBack n) (.ofIndex n) with hclean | ⟨g, hg, hgd⟩
      · rwa [slotSaved_of_clean hclean]
      · rw [slotSaved_of_dirty hg hgd]
        exact holds_saved_of_ne hholds hne g
    · have hframe : (s.writtenBack j.index).frame? j = some f := by
        rw [frame?_writtenBack (Nat.le_of_succ_le hn), if_neg (Nat.lt_irrefl _), hf]
      rw [slotSaved_of_dirty (by rwa [PageId.ofIndex_index]) hd, PageId.ofIndex_index]
      exact holds_saved_self _ _ _

/-- **In several goes as in one**: slots that were written back before make no difference. -/
theorem writtenBack_writtenBack (hm : m ≤ maxPages) (s : Pager) (n : Nat) :
    (s.writtenBack m).writtenBack n = s.writtenBack (max m n) := by
  induction n with
  | zero => rw [Nat.max_zero]; rfl
  | succ n ih =>
    rw [writtenBack_succ, ih]
    by_cases hn : n < m
    · rw [Nat.max_eq_left (Nat.le_of_lt hn), Nat.max_eq_left hn]
      -- The slot was written back before, so its page is clean.
      have hindex : (PageId.ofIndex n).index = n :=
        PageId.index_ofIndex (Nat.lt_trans (Nat.lt_of_lt_of_le hn hm) (by decide))
      refine slotSaved_of_clean fun f hf => ?_
      rw [frame?_writtenBack hm, hindex, if_pos hn] at hf
      obtain ⟨g, -, rfl⟩ := Option.map_eq_some_iff.mp hf
      rfl
    · rw [Nat.max_eq_right (Nat.le_of_not_lt hn), Nat.max_eq_right (by omega), writtenBack_succ]

/-! ## Where writing back stops -/

/-- The medium takes all dirty pages of the first `n` slots. -/
def Unhindered (s : Pager) (n : Nat) : Prop :=
  ∀ {j f}, s.frame? j = some f → f.dirty = true → j.index < n → j ∉ s.disk.damaged

theorem flushSlot_of_clean {i : Nat} (h : s.Clean (.ofIndex i)) :
    flushSlot i s = (.ok (), s) := by
  unfold flushSlot
  rw [bind_ok (state_apply s)]
  cases hf : s.frame? (.ofIndex i) with
  | none => rfl
  | some f =>
    dsimp only
    rw [if_neg (Bool.eq_false_iff.mp (h f hf))]
    rfl

theorem flushSlot_of_dirty {i : Nat} (hi : i < maxPages) (hf : s.frame? (.ofIndex i) = some f)
    (hd : f.dirty = true) :
    flushSlot i s =
      if .ofIndex i ∈ s.disk.damaged then (.error (.refused (.io .writeFailed)), s)
      else (.ok (), s.slotSaved i) := by
  have hindex : (PageId.ofIndex i).index = i := PageId.index_ofIndex (Nat.lt_trans hi (by decide))
  have hid : (PageId.ofIndex i).index < maxPages := by rwa [hindex]
  have hwrite := writePage_run (p := f.page) hid s
  unfold flushSlot
  rw [bind_ok (state_apply s), hf]
  dsimp only
  rw [if_pos hd]
  split
  · rename_i hbad
    exact bind_error (hwrite.trans (if_pos hbad))
  · rename_i hbad
    rw [bind_ok (hwrite.trans (if_neg hbad)), change_apply, slotSaved_of_dirty hf hd, saved, hindex]

/-- The first slots are come through if the medium takes their dirty pages. -/
theorem flushSlots_append (hn : n ≤ maxPages) (h : s.Unhindered n) (rest : List Nat) :
    (List.range n ++ rest).forM flushSlot s = rest.forM flushSlot (s.writtenBack n) := by
  induction n generalizing rest with
  | zero => rfl
  | succ n ih =>
    have hindex : (PageId.ofIndex n).index = n := PageId.index_ofIndex (Nat.lt_trans hn (by decide))
    have hslot : flushSlot n (s.writtenBack n) = (.ok (), s.writtenBack (n + 1)) := by
      rw [writtenBack_succ]
      rcases clean_or_dirty (s.writtenBack n) (.ofIndex n) with hclean | ⟨f, hf, hd⟩
      · rw [flushSlot_of_clean hclean, slotSaved_of_clean hclean]
      · rw [flushSlot_of_dirty hn hf hd, damaged_writtenBack, if_neg]
        rw [frame?_writtenBack (Nat.le_of_succ_le hn), hindex, if_neg (Nat.lt_irrefl n)] at hf
        exact h hf hd (by rw [hindex]; exact Nat.lt_succ_self n)
    rw [List.range_succ, List.append_assoc, ih (Nat.le_of_succ_le hn)
      fun hf hd hj => h hf hd (Nat.lt_succ_of_lt hj)]
    exact bind_ok hslot

theorem flush_eq (h : s.count ≤ maxPages) :
    flush s = (List.range s.count).forM flushSlot s := by
  unfold flush
  rw [bind_ok (state_apply s), bind_ok (require_apply_of h s)]

/-- **Writing back on a medium that takes all dirty pages.** -/
theorem flush_unhindered (hs : s.Sound) (h : s.Unhindered s.count) :
    flush s = (.ok (), s.writtenBack s.count) := by
  rw [flush_eq hs.count_le, ← List.append_nil (List.range s.count),
    flushSlots_append hs.count_le h]
  rfl

/-- **Writing back on a medium that fails** at a dirty page stops there. -/
theorem flush_hindered (hs : s.Sound) (hf : s.frame? id = some f) (hd : f.dirty = true)
    (hbad : id ∈ s.disk.damaged) (h : s.Unhindered id.index) :
    flush s = (.error (.refused (.io .writeFailed)), s.writtenBack id.index) := by
  have hid := index_lt_of_frame? hf
  obtain ⟨n, hn⟩ := Nat.exists_eq_add_of_lt (hs.cached_lt hf)
  have hslot : flushSlot id.index (s.writtenBack id.index) =
      (.error (.refused (.io .writeFailed)), s.writtenBack id.index) := by
    have hframe : (s.writtenBack id.index).frame? (.ofIndex id.index) = some f := by
      rw [frame?_writtenBack (Nat.le_of_lt hid), PageId.ofIndex_index, if_neg (Nat.lt_irrefl _), hf]
    rw [flushSlot_of_dirty hid hframe hd, damaged_writtenBack, PageId.ofIndex_index, if_pos hbad]
  rw [flush_eq hs.count_le, hn, Nat.add_assoc, List.range_add, List.range_succ_eq_map,
    List.map_cons, flushSlots_append (Nat.le_of_lt hid) h]
  exact bind_error hslot

/-- The medium takes all dirty pages of the first slots, or there is a first one that it fails
at. -/
theorem unhindered_or_first (s : Pager) (n : Nat) :
    s.Unhindered n ∨ ∃ id f, s.frame? id = some f ∧ f.dirty = true ∧ id ∈ s.disk.damaged ∧
      s.Unhindered id.index := by
  induction n with
  | zero => exact .inl fun _ _ hj => absurd hj (Nat.not_lt_zero _)
  | succ n ih =>
    rcases ih with hfree | hfirst
    · by_cases h : s.Unhindered (n + 1)
      · exact .inl h
      · simp only [Unhindered, not_forall, not_not] at h
        obtain ⟨id, f, hf, hd, hlt, hbad⟩ := h
        refine .inr ⟨id, f, hf, hd, hbad, fun hg hgd hj => hfree hg hgd (by omega)⟩
    · exact .inr hfirst

/-- Writing back comes through all slots, or stops in front of one of them. -/
theorem flush_cases (hs : s.Sound) :
    flush s = (.ok (), s.writtenBack s.count) ∨
    ∃ n < s.count, flush s = (.error (.refused (.io .writeFailed)), s.writtenBack n) := by
  rcases unhindered_or_first s s.count with h | ⟨id, f, hf, hd, hbad, h⟩
  · exact .inl (flush_unhindered hs h)
  · exact .inr ⟨id.index, hs.cached_lt hf, flush_hindered hs hf hd hbad h⟩

/-! ## A write that fails, and what follows -/

/-- `s'` is what writing back leaves of `s` if it breaks off at page `id`. -/
structure Interrupted (s s' : Pager) (id : PageId) : Prop where
  count : s'.count = s.count
  /-- The same pages are cached, with the same bytes. -/
  cached : ∀ j, (s'.frame? j).map Frame.page = (s.frame? j).map Frame.page
  /-- Dirty pages before `id` are clean now, and their copies in the file are equal to them. -/
  written : ∀ {j f}, s.frame? j = some f → f.dirty = true → j.index < id.index →
    s'.frame? j = some { f with dirty := false } ∧ s'.disk.Holds j f.page
  /-- Dirty pages from `id` on are dirty still. -/
  unwritten : ∀ {j f}, s.frame? j = some f → f.dirty = true → id.index ≤ j.index →
    s'.frame? j = some f
  /-- Clean pages are clean still. -/
  clean : ∀ {j}, s.Clean j → s'.Clean j

/-- The pager after more attempts to write back, each with a medium that fails at other pages. -/
def retried (s : Pager) (attempts : List (List PageId)) : Pager :=
  attempts.foldl (fun s bad => (flush (s.onMedium bad)).2) s

theorem Sound.onMedium (h : s.Sound) (bad : List PageId) : (s.onMedium bad).Sound :=
  ⟨h.cached_lt, h.pages_le, h.count_le⟩

theorem interrupted_writtenBack (hid : id.index ≤ maxPages) (bad : List PageId) :
    s.Interrupted ((s.writtenBack id.index).onMedium bad) id := by
  have hframe : ∀ j, ((s.writtenBack id.index).onMedium bad).frame? j = if j.index < id.index then
      (s.frame? j).map fun f => { f with dirty := false } else s.frame? j :=
    fun j => frame?_writtenBack hid j
  refine ⟨count_writtenBack s _, fun j => ?_, fun hf hd hj => ⟨?_, ?_⟩, fun hf _ hj => ?_,
    fun {j} hclean g hg => ?_⟩
  · rw [hframe]
    split
    · rw [Option.map_map]
      rfl
    · rfl
  · rw [hframe, if_pos hj, hf]
    rfl
  · exact holds_writtenBack hid hf hd hj
  · rw [hframe, if_neg (Nat.not_lt.mpr hj), hf]
  · rw [hframe] at hg
    split at hg
    · obtain ⟨f, -, rfl⟩ := Option.map_eq_some_iff.mp hg
      rfl
    · exact hclean g hg

/-- An attempt that begins where some first slots are written back already. -/
theorem flush_writtenBack (hs : s.Sound) (hn : n ≤ s.count) (bad : List PageId) :
    flush ((s.writtenBack n).onMedium bad) = (.ok (), (s.writtenBack s.count).onMedium bad) ∨
    ∃ m ≤ s.count, flush ((s.writtenBack n).onMedium bad) =
      (.error (.refused (.io .writeFailed)), (s.writtenBack m).onMedium bad) := by
  have hjoin : ∀ m, ((s.writtenBack n).onMedium bad).writtenBack m =
      (s.writtenBack (max n m)).onMedium bad := fun m => by
    rw [writtenBack_onMedium, writtenBack_writtenBack (Nat.le_trans hn hs.count_le)]
  have hcount : ((s.writtenBack n).onMedium bad).count = s.count := count_writtenBack s n
  rcases flush_cases ((hs.writtenBack n).onMedium bad) with hrun | ⟨m, hm, hrun⟩
  · rw [hjoin, hcount, Nat.max_eq_right hn] at hrun
    exact .inl hrun
  · rw [hjoin] at hrun
    exact .inr ⟨max n m, Nat.max_le.mpr ⟨hn, Nat.le_of_lt (hcount ▸ hm)⟩, hrun⟩

/-- Whatever fails on the way, some first slots are written back. -/
theorem exists_retried_eq (hs : s.Sound) (hn : n ≤ s.count) (bad : List PageId)
    (attempts : List (List PageId)) :
    ∃ m ≤ s.count, ∃ bad', retried ((s.writtenBack n).onMedium bad) attempts =
      (s.writtenBack m).onMedium bad' := by
  induction attempts generalizing n bad with
  | nil => exact ⟨n, hn, bad, rfl⟩
  | cons next attempts ih =>
    show ∃ m ≤ s.count, ∃ bad', retried (flush ((s.writtenBack n).onMedium next)).2 attempts =
      (s.writtenBack m).onMedium bad'
    rcases flush_writtenBack hs hn next with hrun | ⟨m, hm, hrun⟩
    · rw [hrun]
      exact ih (Nat.le_refl _) next
    · rw [hrun]
      exact ih hm next

/-- **Writing back that is interrupted.** If the medium fails at a dirty page, and at no dirty page
before it, the failure is reported and the pager is left as `Interrupted` says. The next attempt, on
a medium that takes all pages, ends as the first one would have ended on such a medium. So does,
for the file, any later attempt that succeeds, whatever the attempts in between fail at. -/
theorem flush_interrupted (hs : s.Reachable) {bad : List PageId} (hf : s.frame? id = some f)
    (hd : f.dirty = true) (hbad : id ∈ bad)
    (hfirst : ∀ j g, s.frame? j = some g → g.dirty = true → j.index < id.index → j ∉ bad) :
    ∃ s' t, flush (s.onMedium bad) = (.error (.refused (.io .writeFailed)), s') ∧
      s.Interrupted s' id ∧
      flush (s.onMedium []) = (.ok (), t) ∧ flush (s'.onMedium []) = (.ok (), t) ∧
      ∀ attempts bad' t', flush ((retried s' attempts).onMedium bad') = (.ok (), t') →
        t'.disk.bytes = t.disk.bytes := by
  have hsound := hs.sound
  have hid := index_lt_of_frame? hf
  have hle : id.index ≤ s.count := Nat.le_of_lt (hsound.cached_lt hf)
  have hfree : ∀ r : Pager, (r.onMedium []).Unhindered (r.onMedium []).count :=
    fun _ _ _ _ _ _ => List.not_mem_nil
  have hrun := flush_hindered (s := s.onMedium bad) (hsound.onMedium bad) hf hd hbad
    fun hg hgd hj => hfirst _ _ hg hgd hj
  have hwhole := flush_unhindered (hsound.onMedium []) (hfree s)
  have hrest := flush_unhindered ((hsound.writtenBack id.index).onMedium [])
    (hfree (s.writtenBack id.index))
  rw [writtenBack_onMedium] at hrun hwhole hrest
  rw [writtenBack_writtenBack (Nat.le_of_lt hid)] at hrest
  refine ⟨_, _, hrun, interrupted_writtenBack (Nat.le_of_lt hid) bad, hwhole, ?_,
    fun attempts bad' t' hlater => ?_⟩
  · rw [show ((s.writtenBack id.index).onMedium []).count = s.count from count_writtenBack s _,
      Nat.max_eq_right hle] at hrest
    exact hrest
  · obtain ⟨m, hm, bad'', heq⟩ := exists_retried_eq hsound hle bad attempts
    rw [heq] at hlater
    rcases flush_writtenBack hsound hm bad' with hend | ⟨k, -, hend⟩
    · cases hlater.symm.trans hend
      rfl
    · cases hlater.symm.trans hend

/-- A reachable pager whose next page is written. -/
theorem Reachable.exists_next (hs : s.Reachable) (hid : id.index < maxPages)
    (hc : s.count ≤ id.index) (p : Page) :
    ∃ s' : Pager, s'.Reachable ∧ s'.count = id.index + 1 ∧
      ∀ j, s'.frame? j = if j = id then some { page := p, dirty := true } else s.frame? j := by
  have hv := hs.sound.view_of_count_le hid hc
  have hedit : (edit id (fun _ => some p) s).2 = s.wrote id p :=
    congrArg Prod.snd (edit_run (g := fun _ => some p) hv rfl)
  refine ⟨s.wrote id p, hedit ▸ hs.edited id fun _ => some p, ?_, frame?_wrote hv p⟩
  rw [count_wrote]
  omega

/-- Two pages of a new file, of which the second cannot be written. -/
theorem flush_interrupted_second :
    ∃ s s' : Pager, s.frame? ⟨0⟩ = some ⟨.empty .leaf, true⟩ ∧
      s.frame? ⟨1⟩ = some ⟨.empty .internal, true⟩ ∧
      flush (s.onMedium [⟨1⟩]) = (.error (.refused (.io .writeFailed)), s') ∧
      s'.frame? ⟨0⟩ = some ⟨.empty .leaf, false⟩ ∧ s'.disk.Holds ⟨0⟩ (.empty .leaf) ∧
      s'.frame? ⟨1⟩ = some ⟨.empty .internal, true⟩ := by
  have hopen : ofFile defaultPath #[] =
      .ok (holding { path := defaultPath, bytes := #[], pages := 0 } 0 #[]) := rfl
  have hlt₁ : (⟨0⟩ : PageId).index < maxPages := by decide
  have hlt₂ : (⟨1⟩ : PageId).index < maxPages := by decide
  obtain ⟨s₁, hs₁, hcount, hframe₁⟩ := (Reachable.opened hopen).exists_next hlt₁ (Nat.zero_le _)
    (.empty .leaf)
  obtain ⟨s₂, hs₂, -, hframe₂⟩ := hs₁.exists_next hlt₂ (Nat.le_of_eq hcount) (.empty .internal)
  have hfirst : s₂.frame? ⟨0⟩ = some ⟨.empty .leaf, true⟩ := by
    rw [hframe₂, if_neg (by decide), hframe₁, if_pos rfl]
  have hsecond : s₂.frame? ⟨1⟩ = some ⟨.empty .internal, true⟩ := by
    rw [hframe₂, if_pos rfl]
  have hbad : (⟨1⟩ : PageId) ∈ ([⟨1⟩] : List PageId) := List.mem_singleton.mpr rfl
  obtain ⟨s', -, hrun, hleft, -⟩ := flush_interrupted hs₂ hsecond rfl hbad
    fun j _ _ _ hj hbad => by
      rw [List.mem_singleton.mp hbad] at hj
      exact Nat.lt_irrefl _ hj
  obtain ⟨hclean, hholds⟩ := hleft.written hfirst rfl (by decide)
  exact ⟨s₂, s', hfirst, hsecond, hrun, hclean, hholds,
    hleft.unwritten hsecond rfl (Nat.le_refl _)⟩

end Pager

end PagedTable
