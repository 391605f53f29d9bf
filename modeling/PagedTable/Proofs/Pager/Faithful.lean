import PagedTable.Proofs.Pager.Reachable

/-!
# The cache and the file

A pager that nobody interferes with is *faithful*: a page that is not dirty is the page of the file,
and a page that is neither cached nor in the file is a page of zero bytes. So all that can be told
about its pages is `Pager.shown`, whichever of them are cached.

* `Faithful.fetch_run`: a fetch answers the page that is shown and makes it count.
* `Faithful.flush_run`: writing back leaves all that is shown, and a file that is nothing else.
* `ofFile_run`: opening a file of pages shows its pages.
* `Undisturbed`: the pagers that come about if nothing else writes to the file. All are faithful.
-/

namespace PagedTable

open PagedTable.Action

/-- Files of as many pages are equal if their pages are. -/
theorem Page.file_ext {a b : Array UInt8} {n : Nat} (ha : a.size = n * pageSize)
    (hb : b.size = n * pageSize)
    (h : ∀ i < n, ofBytesAt a (i * pageSize) = ofBytesAt b (i * pageSize)) : a = b := by
  refine Array.ext (ha.trans hb.symm) fun i hia hib => ?_
  have hn : i / pageSize < n := (Nat.div_lt_iff_lt_mul (by decide)).mpr (ha ▸ hia)
  have hi : i % pageSize < pageSize := Nat.mod_lt _ (by decide)
  have hbyte := congrArg (Page.byte · (i % pageSize)) (h _ hn)
  have hsplit : i / pageSize * pageSize + i % pageSize = i := Nat.div_add_mod' i pageSize
  simp only [byte_ofBytesAt _ _ hi, hsplit] at hbyte
  simpa [Array.getD_eq_getD_getElem?, hia, hib] using hbyte

/-- Behind the end of the file there are zero bytes. -/
theorem Page.ofBytesAt_of_size_le {bytes : Array UInt8} {off : Nat} (h : bytes.size ≤ off) :
    ofBytesAt bytes off = zero := by
  apply ext_byte
  intro i hi
  rw [byte_ofBytesAt _ _ hi, byte_zero, Array.getD_eq_getD_getElem?,
    Array.getElem?_eq_none (by omega)]
  rfl

namespace Pager

variable {s s' : Pager} {id j : PageId} {f : Frame} {p : Page}

/-- The bytes of a page as a fetch answers them, if nothing but the cache writes to the file. -/
def shown (s : Pager) (id : PageId) : Page := ((s.frame? id).map Frame.page).getD Page.zero

/-- Cache and file go together. -/
structure Faithful (s : Pager) : Prop where
  sound : s.Sound
  /-- The file has whole pages, as many as are known. -/
  size_eq : s.disk.bytes.size = s.disk.pages.toNat * pageSize
  clean : ∀ {id f}, s.frame? id = some f → f.dirty = false →
    id.index < s.disk.pages.toNat ∧ f.page = Page.ofBytesAt s.disk.bytes id.offset
  blank : ∀ {id}, s.frame? id = none → Page.ofBytesAt s.disk.bytes id.offset = Page.zero
  /-- The last page in use is cached if the file ends before it. -/
  last : s.disk.pages.toNat < s.count → ∃ f, s.frame? (.ofIndex (s.count - 1)) = some f

theorem shown_of_frame? (h : s.frame? id = some f) : s.shown id = f.page := by
  rw [shown, h]
  rfl

theorem shown_of_frame?_eq_none (h : s.frame? id = none) : s.shown id = Page.zero := by
  rw [shown, h]
  rfl

theorem shown_hold (hid : id.index < maxPages) :
    (s.hold id f).shown = Function.update s.shown id f.page := by
  funext j
  unfold shown
  rw [frame?_hold hid]
  by_cases hj : j = id
  · subst hj
    rw [if_pos rfl, Function.update_self]
    rfl
  · rw [if_neg hj, Function.update_of_ne hj]

/-! ## Accesses -/

/-- Within the limit every page is there. -/
theorem Faithful.view_eq (h : s.Faithful) (hid : id.index < maxPages) :
    ∃ d, s.view id = some ⟨s.shown id, d⟩ := by
  cases hf : s.frame? id with
  | some f => exact ⟨f.dirty, by rw [view_of_frame? hid hf, shown_of_frame? hf]⟩
  | none =>
    rw [shown_of_frame?_eq_none hf]
    by_cases hn : id.number < s.disk.pages
    · have hlt : id.index < s.disk.pages.toNat := UInt32.lt_iff_toNat_lt.mp hn
      have hbytes : id.offset + pageSize ≤ s.disk.bytes.size := by
        rw [h.size_eq]
        show id.index * 4096 + 4096 ≤ s.disk.pages.toNat * 4096
        omega
      exact ⟨false, by rw [view_of_file hid hf hn hbytes, h.blank hf]⟩
    · refine ⟨true, ?_⟩
      simp only [view]
      rw [if_neg (Nat.not_le.mpr hid), hf]
      exact if_neg hn

/-- A page that is put into its slot has to be the page of the file, or dirty. -/
theorem Faithful.hold (h : s.Faithful) (hid : id.index < maxPages)
    (hclean : f.dirty = false →
      id.index < s.disk.pages.toNat ∧ f.page = Page.ofBytesAt s.disk.bytes id.offset) :
    (s.hold id f).Faithful := by
  refine ⟨h.sound.hold hid f, h.size_eq, fun {j g} hj hg => ?_, fun {j} hj => ?_, fun hlt => ?_⟩
  · rw [frame?_hold hid] at hj
    split at hj
    · rename_i heq
      cases hj
      exact heq ▸ hclean hg
    · exact h.clean hj hg
  · rw [frame?_hold hid] at hj
    split at hj
    · cases hj
    · exact h.blank hj
  · have hlt' : s.disk.pages.toNat < max s.count (id.index + 1) := hlt
    show ∃ g, (s.hold id f).frame? (.ofIndex (max s.count (id.index + 1) - 1)) = some g
    simp only [frame?_hold hid]
    split
    · exact ⟨f, rfl⟩
    · rename_i hne
      -- The page that was put in is not the last one, which was in use before.
      have hcount : max s.count (id.index + 1) = s.count := by
        by_contra hmax
        refine hne ?_
        rw [show max s.count (id.index + 1) - 1 = id.index by omega, PageId.ofIndex_index]
      rw [hcount] at hlt' ⊢
      exact h.last hlt'

theorem Faithful.fetched (h : s.Faithful) (id : PageId) : (s.fetched id).Faithful := by
  unfold Pager.fetched
  rcases fetch_cases s id with
    ⟨-, e, hr⟩ | ⟨g, -, -, hr⟩ | ⟨g, hg, hf, hn, hr⟩ | ⟨g, hg, -, -, hd, hr⟩
  · rw [hr]
    exact h
  · rw [hr]
    exact h
  · rw [hr]
    have hid := index_lt_of_view hg
    have hc : s.charged.Faithful :=
      ⟨⟨h.sound.cached_lt, h.sound.pages_le, h.sound.count_le⟩, h.size_eq, h.clean, h.blank, h.last⟩
    refine hc.hold hid fun _ => ⟨UInt32.lt_iff_toNat_lt.mp hn, ?_⟩
    obtain ⟨d, hv⟩ := h.view_eq hid
    rw [hg, shown_of_frame?_eq_none hf] at hv
    rw [congrArg Frame.page (Option.some.inj hv)]
    exact (h.blank hf).symm
  · rw [hr]
    refine h.hold (index_lt_of_view hg) fun hclean => ?_
    rw [hd] at hclean
    cases hclean

/-- Fetching a page shows no page differently. -/
theorem Faithful.shown_fetched (h : s.Faithful) (id : PageId) :
    (s.fetched id).shown = s.shown := by
  by_cases hid : id.index < maxPages
  · obtain ⟨d, hv⟩ := h.view_eq hid
    funext j
    rw [shown, frame?_fetched hv]
    split
    · rename_i heq
      rw [heq]
      rfl
    · rfl
  · rw [fetched_of_view_none]
    exact if_pos (Nat.le_of_not_lt hid)

/-- A page that was fetched counts. -/
theorem Sound.count_fetched (h : s.Sound) (hv : s.view id = some f) :
    (s.fetched id).count = max s.count (id.index + 1) := by
  unfold Pager.fetched
  rcases fetch_cases s id with ⟨hn, -⟩ | ⟨g, -, hf, hr⟩ | ⟨g, -, -, -, hr⟩ | ⟨g, -, -, -, -, hr⟩
  · rw [hn] at hv
    cases hv
  · have := h.cached_lt hf
    rw [hr]
    exact (Nat.max_eq_left this).symm
  all_goals
    rw [hr]
    rfl

/-- **A fetch** within the limit answers the page that is shown, and makes it count. -/
theorem Faithful.fetch_run (h : s.Faithful) (hid : id.index < maxPages) :
    fetch id s = (.ok (s.shown id), s.fetched id) ∧
      (s.fetched id).count = max s.count (id.index + 1) := by
  obtain ⟨d, hv⟩ := h.view_eq hid
  exact ⟨Pager.fetch_run hv, h.sound.count_fetched hv⟩

/-- Beyond the limit there are no pages. -/
theorem fetch_beyond (hid : ¬ id.index < maxPages) (s : Pager) :
    fetch id s = (.error (.refused (.pageOutOfBounds id)), s) := by
  unfold fetch
  rw [if_pos (Nat.le_of_not_lt hid)]
  rfl

/-- A change within the limit leaves the page dirty, also one that breaks a promise. -/
theorem edit_cases (h : s.Faithful) (hid : id.index < maxPages) (g : Page → Option Page) :
    edit id g s = match g (s.shown id) with
      | some q => (.ok (), s.wrote id q)
      | none => (.error .misused, s.wrote id (s.shown id)) := by
  unfold edit
  rw [bind_ok (h.fetch_run hid).1]
  cases g (s.shown id) <;> rfl

theorem Faithful.wrote (h : s.Faithful) (hid : id.index < maxPages) (p : Page) :
    (s.wrote id p).Faithful :=
  (h.fetched id).hold hid fun hclean => by cases hclean

theorem Faithful.shown_wrote (h : s.Faithful) (hid : id.index < maxPages) (p : Page) :
    (s.wrote id p).shown = Function.update s.shown id p := by
  rw [Pager.wrote, shown_hold hid, h.shown_fetched]

theorem edit_beyond (hid : ¬ id.index < maxPages) (g : Page → Option Page) (s : Pager) :
    edit id g s = (.error (.refused (.pageOutOfBounds id)), s) := by
  unfold edit
  rw [bind_error (fetch_beyond hid s)]

theorem Faithful.edited (h : s.Faithful) (id : PageId) (g : Page → Option Page) :
    (edit id g s).2.Faithful := by
  by_cases hid : id.index < maxPages
  · rw [edit_cases h hid]
    cases g (s.shown id) with
    | some q => exact h.wrote hid q
    | none => exact h.wrote hid _
  · rw [edit_beyond hid]
    exact h

/-- **Nodes are cached**: what is not cached has no node's tag. -/
theorem Faithful.seen (h : s.Faithful) (hseen : s.Seen s') : s' = s := by
  induction hseen with
  | refl => rfl
  | tail _ hstep ih =>
    obtain ⟨id, hnode, rfl⟩ := hstep
    rw [ih] at hnode ⊢
    obtain ⟨⟨kind, p⟩, hn⟩ := Option.isSome_iff_exists.mp hnode
    have hcached : s.frame? id ≠ none := by
      intro hf
      obtain ⟨-, -, rfl⟩ := file_of_node? hf hn
      have htag := (View.node?_eq_some_iff.mp hn).2.1
      rw [h.blank hf, Page.tag, Page.byte_zero] at htag
      cases kind <;> cases htag
    unfold Pager.fetched
    rcases fetch_cases s id with ⟨-, e, hr⟩ | ⟨g, -, -, hr⟩ | ⟨g, -, hf, -⟩ | ⟨g, -, hf, -⟩
    · rw [hr]
    · rw [hr]
    all_goals exact absurd hf hcached

/-! ## Writing back -/

theorem Faithful.saved (h : s.Faithful) (hf : s.frame? id = some f) : (s.saved id f).Faithful := by
  have hid := index_lt_of_frame? hf
  have hpages := pages_saved (s := s) (f := f) hid
  have hlen : f.page.toList.length = pageSize := f.page.size_toArray
  have hother : ∀ {j}, j ≠ id → Page.ofBytesAt (s.saved id f).disk.bytes j.offset =
      Page.ofBytesAt s.disk.bytes j.offset := fun hj =>
    Page.ofBytesAt_splice_of_disjoint _ (hlen.symm ▸ PageId.offset_disjoint hj)
  refine ⟨h.sound.saved hf, ?_, fun {j g} hj hg => ?_, fun {j} hj => ?_, fun hlt => ?_⟩
  · show (splice _ _ _).size = _
    rw [size_splice, hpages, h.size_eq, hlen]
    show max (_ * 4096) (id.index * 4096 + 4096) = max _ _ * 4096
    omega
  · rw [frame?_saved hid] at hj
    split at hj
    · rename_i heq
      cases hj
      subst heq
      exact ⟨by omega, (Page.ofBytesAt_splice_self _ _ _).symm⟩
    · rename_i hne
      obtain ⟨hlt, hpage⟩ := h.clean hj hg
      exact ⟨by omega, by rw [hother hne, hpage]⟩
  · rw [frame?_saved hid] at hj
    split at hj
    · cases hj
    · rename_i hne
      rw [hother hne, h.blank hj]
  · have hlt' : (s.saved id f).disk.pages.toNat < s.count := hlt
    obtain ⟨g, hg⟩ := h.last (by omega)
    show ∃ g, (s.saved id f).frame? (.ofIndex (s.count - 1)) = some g
    rw [frame?_saved hid]
    split
    · exact ⟨_, rfl⟩
    · exact ⟨g, hg⟩

theorem shown_saved (hf : s.frame? id = some f) : (s.saved id f).shown = s.shown := by
  funext j
  rw [shown, frame?_saved (index_lt_of_frame? hf)]
  split
  · rename_i heq
    rw [heq, shown_of_frame? hf]
    rfl
  · rfl

/-- The pager is left as faithful as it was, it shows the same, and clean pages stay clean. -/
structure Settled (s s' : Pager) : Prop where
  faithful : s.Faithful → s'.Faithful
  shown : s'.shown = s.shown
  clean : ∀ {id}, s.Clean id → s'.Clean id

theorem Settled.refl (s : Pager) : Settled s s := ⟨fun h => h, rfl, fun h => h⟩

theorem Settled.trans {s'' : Pager} (h : Settled s s') (h' : Settled s' s'') : Settled s s'' :=
  ⟨fun hs => h'.faithful (h.faithful hs), h'.shown.trans h.shown, fun hc => h'.clean (h.clean hc)⟩

theorem clean_saved (hid : id.index < maxPages) : (s.saved id f).Clean id := by
  intro g hg
  rw [frame?_saved hid, if_pos rfl] at hg
  cases hg
  rfl

theorem Settled.saved (hf : s.frame? id = some f) : Settled s (s.saved id f) := by
  have hid := index_lt_of_frame? hf
  refine ⟨fun h => h.saved hf, shown_saved hf, fun {j} hclean => ?_⟩
  by_cases hj : j = id
  · rw [hj]
    exact clean_saved hid
  · intro g hg
    rw [frame?_saved hid, if_neg hj] at hg
    exact hclean g hg

theorem flushSlots_settled {slots : List Nat} (h : ∀ i ∈ slots, i < maxPages) :
    Settled s (slots.forM flushSlot s).2 ∧
      (s.disk.damaged = [] → ∀ i ∈ slots, (slots.forM flushSlot s).2.Clean (.ofIndex i)) := by
  induction slots generalizing s with
  | nil => exact ⟨.refl s, fun _ i hi => by cases hi⟩
  | cons i slots ih =>
    obtain ⟨hi, hslots⟩ := List.forall_mem_cons.mp h
    show Settled s ((flushSlot i >>= fun _ => slots.forM flushSlot) s).2 ∧
      (s.disk.damaged = [] → ∀ j ∈ i :: slots,
        ((flushSlot i >>= fun _ => slots.forM flushSlot) s).2.Clean (.ofIndex j))
    rcases flushSlot_cases s hi with ⟨hclean, hrun⟩ | ⟨f, -, hd, hrun⟩ | ⟨f, hf, -, hrun⟩
    · rw [bind_ok hrun]
      obtain ⟨hsettled, hcleans⟩ := ih hslots
      exact ⟨hsettled, fun hnil =>
        List.forall_mem_cons.mpr ⟨hsettled.clean hclean, hcleans hnil⟩⟩
    · rw [bind_error hrun]
      refine ⟨.refl s, fun hnil => ?_⟩
      rw [hnil] at hd
      cases hd
    · rw [bind_ok hrun]
      have hclean := clean_saved (s := s) (f := f) (index_lt_of_frame? hf)
      obtain ⟨hsettled, hcleans⟩ := ih (s := s.saved (.ofIndex i) f) hslots
      exact ⟨(Settled.saved hf).trans hsettled, fun hnil =>
        List.forall_mem_cons.mpr ⟨hsettled.clean hclean, hcleans hnil⟩⟩

/-- Writing back settles the pager. On a medium that takes all writes no page stays dirty. -/
theorem flush_settled (hs : s.Sound) :
    Settled s (flush s).2 ∧ (s.disk.damaged = [] → ∀ id, (flush s).2.Clean id) := by
  have hslots : ∀ i ∈ List.range s.count, i < maxPages := fun i hi =>
    Nat.lt_of_lt_of_le (List.mem_range.mp hi) hs.count_le
  obtain ⟨hkept, -⟩ := flush_kept hs
  have hrun : flush s = (List.range s.count).forM flushSlot s := by
    unfold flush
    rw [bind_ok (state_apply s), bind_ok (require_apply_of hs.count_le s)]
  obtain ⟨hsettled, hcleans⟩ := flushSlots_settled (s := s) hslots
  rw [← hrun] at hsettled hcleans
  refine ⟨hsettled, fun hnil id f hf => ?_⟩
  have hlt : id.index < s.count := hkept.count ▸ (hkept.sound hs).cached_lt hf
  refine hcleans hnil id.index (List.mem_range.mpr hlt) f ?_
  rwa [PageId.ofIndex_index]

/-- If no page is dirty, there is nothing to write back. -/
theorem flush_clean (hs : s.Sound) (hclean : ∀ id, s.Clean id) : flush s = (.ok (), s) := by
  have hslots : ∀ slots : List Nat, (∀ i ∈ slots, i < maxPages) →
      slots.forM flushSlot s = (.ok (), s) := by
    intro slots h
    induction slots with
    | nil => rfl
    | cons i slots ih =>
      obtain ⟨hi, hrest⟩ := List.forall_mem_cons.mp h
      have hrun : flushSlot i s = (.ok (), s) := by
        unfold flushSlot
        rw [bind_ok (state_apply s)]
        cases hf : s.frame? (.ofIndex i) with
        | none => rfl
        | some f =>
          dsimp only
          rw [if_neg (Bool.eq_false_iff.mp (hclean _ f hf))]
          rfl
      exact (bind_ok hrun).trans (ih hrest)
  unfold flush
  rw [bind_ok (state_apply s), bind_ok (require_apply_of hs.count_le s)]
  exact hslots _ fun i hi => Nat.lt_of_lt_of_le (List.mem_range.mp hi) hs.count_le

/-- If no page is dirty, the file is all that is shown. -/
theorem Faithful.file_of_clean (h : s.Faithful) (hclean : ∀ id, s.Clean id) :
    s.disk.pages.toNat = s.count ∧ ∀ id, Page.ofBytesAt s.disk.bytes id.offset = s.shown id := by
  constructor
  · by_contra hne
    have hlt : s.disk.pages.toNat < s.count := Nat.lt_of_le_of_ne h.sound.pages_le hne
    obtain ⟨f, hf⟩ := h.last hlt
    have hin := (h.clean hf (hclean _ _ hf)).1
    rw [PageId.index_ofIndex (Nat.lt_of_le_of_lt (Nat.sub_le _ _)
      (Nat.lt_of_le_of_lt h.sound.count_le (by decide)))] at hin
    omega
  · intro id
    cases hf : s.frame? id with
    | none => rw [h.blank hf, shown_of_frame?_eq_none hf]
    | some f => rw [← (h.clean hf (hclean _ _ hf)).2, shown_of_frame? hf]

/-- **Writing back** to a medium that takes all writes leaves all that is shown, and a file that is
nothing else. -/
theorem Faithful.flush_run (h : s.Faithful) (hd : s.disk.damaged = []) :
    ∃ s', flush s = (.ok (), s') ∧ s'.Faithful ∧ s'.count = s.count ∧ s'.shown = s.shown ∧
      s'.disk.damaged = [] ∧ s'.disk.bytes.size = s.count * pageSize ∧
      ∀ id, Page.ofBytesAt s'.disk.bytes id.offset = s.shown id := by
  obtain ⟨hkept, hok⟩ := flush_kept h.sound
  obtain ⟨hsettled, hclean⟩ := flush_settled h.sound
  have h' := hsettled.faithful h
  obtain ⟨hpages, hfile⟩ := h'.file_of_clean (hclean hd)
  refine ⟨_, Prod.ext (hok hd) rfl, h', hkept.count, hsettled.shown, hkept.damaged.trans hd, ?_, ?_⟩
  · rw [h'.size_eq, hpages, hkept.count]
  · rw [hsettled.shown] at hfile
    exact hfile

/-! ## Opening -/

/-- The cache that holds all pages of the file. -/
theorem Faithful.holding {disk : Disk} {n : Nat} (hsize : disk.bytes.size = n * pageSize)
    (hpages : disk.pages.toNat = n) (hn : n ≤ maxPages) :
    (holding disk n disk.bytes).Faithful ∧
      ∀ id, (Pager.holding disk n disk.bytes).shown id = Page.ofBytesAt disk.bytes id.offset := by
  have hbehind : ∀ {id : PageId}, ¬ id.index < n →
      Page.ofBytesAt disk.bytes id.offset = Page.zero := by
    intro id hid
    refine Page.ofBytesAt_of_size_le ?_
    rw [hsize]
    exact Nat.mul_le_mul_right _ (Nat.le_of_not_lt hid)
  refine ⟨⟨.holding _ (Nat.le_of_eq hpages) hn, hpages.symm ▸ hsize, fun {id f} hf hc => ?_,
    fun {id} hf => ?_, fun hlt => ?_⟩, fun id => ?_⟩
  · rw [frame?_holding disk hn] at hf
    split at hf
    · rename_i hid
      rw [← Option.some.inj hf]
      exact ⟨Nat.lt_of_lt_of_eq hid hpages.symm, rfl⟩
    · cases hf
  · rw [frame?_holding disk hn] at hf
    split at hf
    · cases hf
    · exact hbehind (by assumption)
  · exact absurd hlt (Nat.not_lt.mpr (Nat.le_of_eq hpages.symm))
  · rw [shown, frame?_holding disk hn]
    split
    · rfl
    · exact (hbehind (by assumption)).symm

/-- **A file of pages** is opened, and its pages are shown. -/
theorem ofFile_run {bytes : Array UInt8} {n : Nat} (path : String)
    (hsize : bytes.size = n * pageSize) (hn : n ≤ maxPages) :
    ∃ s, ofFile path bytes = .ok s ∧ s.Faithful ∧ s.count = n ∧ s.disk.damaged = [] ∧
      ∀ id, s.shown id = Page.ofBytesAt bytes id.offset := by
  have hfits : bytes.size < countLimit :=
    hsize ▸ Nat.mul_lt_mul_of_pos_right (Nat.lt_of_le_of_lt hn (by decide)) (by decide)
  have hcounted : counted bytes = n := by
    rw [counted_of_lt hfits, hsize, Nat.mul_div_cancel n (by decide)]
  have hpages : (UInt32.ofNat (bytes.size / pageSize)).toNat = n :=
    UInt32.toNat_ofNat'.trans hcounted
  have hall : bytes.extract 0 (n * pageSize) = bytes := by rw [← hsize, Array.extract_size]
  generalize hopen : ofFile path bytes = result
  have hopened := ofFile_opened path bytes
  rw [hopen] at hopened
  cases hopened with
  | torn torn => exact absurd (hsize ▸ Nat.mul_mod_left n pageSize) torn
  | crowded _ crowded => exact absurd hn (Nat.not_le.mpr (hcounted ▸ crowded))
  | opened =>
    rw [hcounted, hall]
    exact ⟨_, rfl, (Faithful.holding hsize hpages hn).1, rfl, rfl,
      (Faithful.holding hsize hpages hn).2⟩

/-! ## Undisturbed pagers -/

/-- A pager that comes about from opening a file that nothing else writes to. Its medium may fail,
and its pages may be numbered with 32 bits. -/
inductive Undisturbed : Pager → Prop where
  | opened {path : String} {bytes : Array UInt8} {s : Pager}
    (fits : bytes.size < UInt32.size * pageSize) (run : Pager.ofFile path bytes = .ok s) :
    Undisturbed s
  | fetched {s : Pager} (before : Undisturbed s) (id : PageId) : Undisturbed (fetch id s).2
  | edited {s : Pager} (before : Undisturbed s) (id : PageId) (change : Page → Option Page) :
    Undisturbed (edit id change s).2
  | flushed {s : Pager} (before : Undisturbed s) : Undisturbed (flush s).2
  /-- The medium fails elsewhere than before. -/
  | worn {s : Pager} (before : Undisturbed s) (damaged : List PageId) :
    Undisturbed { s with disk := { s.disk with damaged } }

/-- A file that is opened has whole pages within the limit. -/
theorem size_of_ofFile {path : String} {bytes : Array UInt8}
    (fits : bytes.size < UInt32.size * pageSize) (h : ofFile path bytes = .ok s) :
    ∃ n, bytes.size = n * pageSize ∧ n ≤ maxPages := by
  obtain ⟨hwhole, hroom⟩ := ((ofFile_opened path bytes).ok_iff fits).mp ⟨s, h⟩
  obtain ⟨n, hn⟩ := Disk.exists_pages hwhole
  rw [hn, Nat.mul_div_cancel n (by decide)] at hroom
  exact ⟨n, hn, hroom⟩

/-- **What nobody interferes with is faithful.** -/
theorem Undisturbed.faithful (h : Undisturbed s) : s.Faithful := by
  induction h with
  | opened fits run =>
    obtain ⟨n, hsize, hn⟩ := size_of_ofFile fits run
    obtain ⟨s', hrun, hs', -⟩ := ofFile_run _ hsize hn
    rw [run] at hrun
    cases hrun
    exact hs'
  | fetched _ id ih => exact ih.fetched id
  | edited _ id change ih => exact ih.edited id change
  | flushed _ ih => exact (flush_settled ih.sound).1.faithful ih
  | worn _ damaged ih =>
    exact ⟨⟨ih.sound.cached_lt, ih.sound.pages_le, ih.sound.count_le⟩, ih.size_eq, ih.clean,
      ih.blank, ih.last⟩

theorem Undisturbed.reachable (h : Undisturbed s) : s.Reachable := by
  induction h with
  | opened _ run => exact .opened run
  | fetched _ id ih => exact ih.fetched id
  | edited _ id change ih => exact ih.edited id change
  | flushed _ ih => exact ih.flushed
  | @worn s _ damaged ih => exact ih.disturbed s.disk.bytes damaged

end Pager

end PagedTable
