import PagedTable.Proofs.Pager.Access

/-!
# Pagers that show the same

Which pages are cached, which are dirty and what the file holds makes no difference to whoever
accesses pages or writes them back, as long as the same pages are shown and the page counts are
equal.

* `Intact`: pages are in use, cache and file go together, and the medium takes all writes.
* `Alike`: pagers that show the same. Accesses respect it (`alike_accesses`), and so does writing
  back (`flush_alike`), which leaves the same file.
-/

namespace PagedTable

open PagedTable.Action

namespace Pager

variable {s s' : Pager} {id : PageId}

/-- Pages are in use, cache and file go together, and the medium takes all writes. -/
structure Intact (s : Pager) : Prop where
  used : 0 < s.count
  faithful : s.Faithful
  undamaged : s.disk.damaged = []

theorem Intact.closed : Closed Intact where
  fetch id s h := ⟨(count_closed 1).fetch id s h.used, h.faithful.fetched id,
    (damaged_closed []).fetch id s h.undamaged⟩
  edit id change s h := ⟨(count_closed 1).edit id change s h.used, h.faithful.edited id change,
    (damaged_closed []).edit id change s h.undamaged⟩

/-- The pagers show the same pages and count as many. -/
structure Alike (s s' : Pager) : Prop where
  left : s.Intact
  right : s'.Intact
  count : s.count = s'.count
  shown : s.shown = s'.shown

theorem Alike.refl (h : s.Intact) : Alike s s := ⟨h, h, rfl, rfl⟩

theorem Alike.symm (h : Alike s s') : Alike s' s := ⟨h.right, h.left, h.count.symm, h.shown.symm⟩

theorem Alike.trans {s'' : Pager} (h : Alike s s') (h' : Alike s' s'') : Alike s s'' :=
  ⟨h.left, h'.right, h.count.trans h'.count, h.shown.trans h'.shown⟩

/-- Pagers that show the same have the same nodes. -/
theorem Alike.node?_eq (h : Alike s s') (id : PageId) : s.view.node? id = s'.view.node? id := by
  have hnode : ∀ {a b : Pager}, Alike a b → ∀ x, a.view.node? id = some x →
      b.view.node? id = some x := by
    rintro a b hab ⟨kind, p⟩ hn
    obtain ⟨⟨d, hv⟩, htag, hcount⟩ := View.node?_eq_some_iff.mp hn
    have hid := index_lt_of_view hv
    obtain ⟨d₁, hv₁⟩ := hab.left.faithful.view_eq hid
    obtain ⟨d₂, hv₂⟩ := hab.right.faithful.view_eq hid
    rw [hv] at hv₁
    cases hv₁
    rw [hab.shown] at htag hcount ⊢
    exact View.node?_eq_some_iff.mpr ⟨⟨d₂, hv₂⟩, htag, hcount⟩
  exact Option.ext fun x => ⟨hnode h x, hnode h.symm x⟩

theorem Alike.fetched (h : Alike s s') (hid : id.index < maxPages) :
    Alike (s.fetched id) (s'.fetched id) := by
  refine ⟨Intact.closed.fetch id s h.left, Intact.closed.fetch id s' h.right, ?_, ?_⟩
  · rw [(h.left.faithful.fetch_run hid).2, (h.right.faithful.fetch_run hid).2, h.count]
  · rw [h.left.faithful.shown_fetched, h.right.faithful.shown_fetched, h.shown]

theorem Alike.wrote (h : Alike s s') (hid : id.index < maxPages) (p : Page) :
    Alike (s.wrote id p) (s'.wrote id p) := by
  have hf := h.fetched hid
  refine ⟨⟨Nat.lt_of_lt_of_le hf.left.used (Nat.le_max_left _ _), h.left.faithful.wrote hid p,
    hf.left.undamaged⟩, ⟨Nat.lt_of_lt_of_le hf.right.used (Nat.le_max_left _ _),
    h.right.faithful.wrote hid p, hf.right.undamaged⟩, ?_, ?_⟩
  · show max (s.fetched id).count _ = max (s'.fetched id).count _
    rw [hf.count]
  · rw [h.left.faithful.shown_wrote hid, h.right.faithful.shown_wrote hid, h.shown]

/-- **Accesses** cannot tell pagers apart that show the same. -/
theorem alike_accesses : Accesses Alike where
  count _ _ h := h.count
  fetch id s s' h := by
    by_cases hid : id.index < maxPages
    · rw [(h.left.faithful.fetch_run hid).1, (h.right.faithful.fetch_run hid).1, h.shown]
      exact ⟨rfl, h.fetched hid⟩
    · rw [fetch_beyond hid, fetch_beyond hid]
      exact ⟨rfl, h⟩
  edit id change s s' h := by
    by_cases hid : id.index < maxPages
    · rw [edit_cases h.left.faithful hid, edit_cases h.right.faithful hid, h.shown]
      cases change (s'.shown id) with
      | some q => exact ⟨rfl, h.wrote hid q⟩
      | none => exact ⟨rfl, h.wrote hid _⟩
    · rw [edit_beyond hid, edit_beyond hid]
      exact ⟨rfl, h⟩

/-- Writing back leaves a file of the pages that are shown, and shows them still. -/
theorem Intact.flush_run (h : s.Intact) :
    ∃ s', flush s = (.ok (), s') ∧ Alike s s' ∧ s'.disk.bytes.size = s.count * pageSize ∧
      ∀ id, Page.ofBytesAt s'.disk.bytes id.offset = s.shown id := by
  obtain ⟨s', hrun, hs', hcount, hshown, hd, hsize, hfile⟩ := h.faithful.flush_run h.undamaged
  exact ⟨s', hrun, ⟨h, ⟨hcount ▸ h.used, hs', hd⟩, hcount.symm, hshown.symm⟩, hsize, hfile⟩

theorem Intact.flush_keeps : Keeps Intact flush := by
  intro s h
  obtain ⟨s', hrun, halike, -⟩ := h.flush_run
  rw [hrun]
  exact halike.right

/-- **Writing back** cannot tell pagers apart that show the same, and leaves the same file. -/
theorem flush_alike (h : Alike s s') :
    ∃ u u', flush s = (.ok (), u) ∧ flush s' = (.ok (), u') ∧ Alike u u' ∧
      u.disk.bytes = u'.disk.bytes := by
  obtain ⟨u, hrun, hu, hsize, hfile⟩ := h.left.flush_run
  obtain ⟨u', hrun', hu', hsize', hfile'⟩ := h.right.flush_run
  refine ⟨u, u', hrun, hrun', hu.symm.trans (h.trans hu'), ?_⟩
  -- Either file has the pages that are shown, and these are the same.
  refine Page.file_ext hsize (h.count ▸ hsize') fun i hi => ?_
  have hlt : i < UInt32.size := Nat.lt_trans (Nat.lt_of_lt_of_le hi h.left.faithful.sound.count_le)
    (by decide)
  have hoff : (PageId.ofIndex i).offset = i * pageSize := by
    rw [PageId.offset, PageId.index_ofIndex hlt]
  rw [← hoff, hfile, hfile', h.shown]

theorem flush_respects : Respects Alike flush := by
  intro s s' h
  obtain ⟨u, u', hrun, hrun', hu, -⟩ := flush_alike h
  rw [hrun, hrun']
  exact ⟨rfl, hu⟩

end Pager

end PagedTable
