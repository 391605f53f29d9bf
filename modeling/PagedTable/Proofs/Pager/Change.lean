import PagedTable.Proofs.Pager.View

/-!
# Changes of a pager

`Changed ids n s s'`: from the sound pager `s` a run wrote no page but those in `ids` and took `n`
pages that were not in use.

* `SamePage`: nothing happened to a page, unless it was loaded.
* `Changed.trans`: one run after another.
* `edit_known`, `edit_fresh`, `edit_fresh_known`: writing a page in use, the first page that is not,
  and both.
-/

namespace PagedTable

open PagedTable.Action

namespace Pager

variable {s s' s'' : Pager} {ids ids' : List PageId} {n n' : Nat} {id : PageId} {f : Frame}
  {g : Page → Option Page} {q : Page}

/-! ## Pages that stay as they are -/

/-- The page has the same bytes and the same mark in `s'` as in `s`. At most it was loaded from the
file, which leaves it clean. -/
structure SamePage (s s' : Pager) (id : PageId) : Prop where
  view : s'.view id = s.view id
  slot : s'.frame? id = s.frame? id ∨
    s.frame? id = none ∧ ∃ p, s'.frame? id = some { page := p, dirty := false }

namespace SamePage

theorem refl (s : Pager) (id : PageId) : s.SamePage s id := ⟨rfl, .inl rfl⟩

theorem trans (h : s.SamePage s' id) (h' : s'.SamePage s'' id) : s.SamePage s'' id := by
  refine ⟨h'.view.trans h.view, ?_⟩
  rcases h'.slot with heq | ⟨hnone, hload⟩
  · rw [heq]
    exact h.slot
  · rcases h.slot with heq | ⟨-, p, hp⟩
    · exact .inr ⟨heq ▸ hnone, hload⟩
    · rw [hnone] at hp
      cases hp

/-- A page that is in use neither before nor after. -/
theorem of_count_le (hs : s.Sound) (hs' : s'.Sound) (h : s.count ≤ id.index)
    (h' : s'.count ≤ id.index) : s.SamePage s' id := by
  have hnone : ∀ {t : Pager}, t.Sound → t.count ≤ id.index → t.frame? id = none := fun ht hle =>
    Option.eq_none_iff_forall_ne_some.mpr fun _ hf => Nat.not_lt.mpr hle (ht.cached_lt hf)
  refine ⟨?_, .inl (by rw [hnone hs h, hnone hs' h'])⟩
  by_cases hid : id.index < maxPages
  · rw [hs.view_of_count_le hid h, hs'.view_of_count_le hid h']
  · have hbeyond : ∀ t : Pager, t.view id = none := fun _ => if_pos (Nat.le_of_not_lt hid)
    rw [hbeyond, hbeyond]

/-- Loading a node. -/
theorem fetched {j : PageId} (hj : (s.view.node? j).isSome) (id : PageId) :
    s.SamePage (s.fetched j) id := by
  obtain ⟨⟨kind, p⟩, hn⟩ := Option.isSome_iff_exists.mp hj
  obtain ⟨⟨d, hv⟩, -⟩ := View.node?_eq_some_iff.mp hn
  refine ⟨by rw [view_fetched], ?_⟩
  rw [frame?_fetched hv]
  by_cases hid : id = j
  · rw [if_pos hid, hid]
    rcases frame?_of_node hn hv with hcached | ⟨hnone, rfl⟩
    · exact .inl hcached.symm
    · exact .inr ⟨hnone, p, rfl⟩
  · rw [if_neg hid]
    exact .inl rfl

/-- Loading nodes. -/
theorem of_seen (h : s.Seen s') (id : PageId) : s.SamePage s' id := by
  induction h with
  | refl => exact .refl s id
  | tail _ hstep ih =>
    obtain ⟨j, hj, rfl⟩ := hstep
    exact ih.trans (.fetched hj id)

/-- Writing another page. -/
theorem wrote {j : PageId} (h : s.view j = some f) (p : Page) (hid : id ≠ j) :
    s.SamePage (s.wrote j p) id :=
  ⟨by rw [view_wrote h, Function.update_of_ne hid], .inl (by rw [frame?_wrote h, if_neg hid])⟩

end SamePage

/-! ## Changes -/

/-- All pages but those in `ids` are the same in `s'` as in `s`, and `n` more pages are in use. -/
structure Changed (ids : List PageId) (n : Nat) (s s' : Pager) : Prop where
  sound : s'.Sound
  count : s'.count = s.count + n
  same : ∀ {id}, id ∉ ids → s.SamePage s' id

theorem Changed.frame (h : Changed ids n s s') (hid : id ∉ ids) : s'.view id = s.view id :=
  (h.same hid).view

theorem Changed.trans (h : Changed ids n s s') (h' : Changed ids' n' s' s'') :
    Changed (ids ++ ids') (n + n') s s'' := by
  refine ⟨h'.sound, by rw [h'.count, h.count, Nat.add_assoc], fun {id} hid => ?_⟩
  rw [List.mem_append, not_or] at hid
  exact (h.same hid.1).trans (h'.same hid.2)

theorem Changed.of_seen (hs : s.Sound) (h : s.Seen s') : Changed [] 0 s s' :=
  ⟨(h.sound hs).1, (h.sound hs).2, fun _ => .of_seen h _⟩

/-- Loading nodes changes nothing more. -/
theorem Changed.seen (h : Changed ids n s s') (h' : s'.Seen s'') : Changed ids n s s'' :=
  ⟨(h'.sound h.sound).1, (h'.sound h.sound).2.trans h.count,
    fun hid => (h.same hid).trans (.of_seen h' _)⟩

/-- Writing a page that is in use. -/
theorem edit_known (hs : s.Sound) (hlt : id.index < s.count) (h : s.view id = some f)
    (hg : g f.page = some q) :
    ∃ s', edit id g s = (.ok (), s') ∧ Changed [id] 0 s s' ∧
      s'.view id = some { page := q, dirty := true } := by
  refine ⟨s.wrote id q, edit_run h hg, ⟨hs.wrote (index_lt_of_view h) q, ?_, fun {j} hj => ?_⟩, ?_⟩
  · rw [count_wrote]
    omega
  · exact .wrote h q (by simpa using hj)
  · rw [view_wrote h, Function.update_self]

/-- The number of the first page that is not in use. -/
theorem index_fresh (hroom : s.count < maxPages) : (PageId.ofIndex s.count).index = s.count :=
  PageId.index_ofIndex (Nat.lt_trans hroom (by decide))

/-- Writing the first page that is not in use. -/
theorem edit_fresh (hs : s.Sound) (hroom : s.count < maxPages) (hg : g Page.zero = some q) :
    ∃ s', edit (PageId.ofIndex s.count) g s = (.ok (), s') ∧
      Changed [PageId.ofIndex s.count] 1 s s' ∧
      s'.view (PageId.ofIndex s.count) = some { page := q, dirty := true } := by
  have hindex := index_fresh hroom
  have h := hs.view_of_count_le (by rwa [hindex]) (Nat.le_of_eq hindex.symm)
  refine ⟨s.wrote _ q, edit_run h hg, ⟨hs.wrote (index_lt_of_view h) q, ?_, fun {j} hj => ?_⟩, ?_⟩
  · rw [count_wrote, hindex]
    omega
  · exact .wrote h q (by simpa using hj)
  · rw [view_wrote h, Function.update_self]

/-- Writing the first page that is not in use, and then a page that is. -/
theorem edit_fresh_known {e : Page → Option Page} {q' : Page} (hs : s.Sound)
    (hroom : s.count < maxPages) (hlt : id.index < s.count) (h : s.view id = some f)
    (hg : g Page.zero = some q) (he : e f.page = some q') :
    ∃ s', (do
        edit (PageId.ofIndex s.count) g
        edit id e) s = (.ok (), s') ∧
      Changed [PageId.ofIndex s.count, id] 1 s s' ∧
      s'.view (PageId.ofIndex s.count) = some { page := q, dirty := true } ∧
      s'.view id = some { page := q', dirty := true } := by
  have hne : PageId.ofIndex s.count ≠ id := fun heq => by
    rw [← heq, index_fresh hroom] at hlt
    exact Nat.lt_irrefl _ hlt
  obtain ⟨s₁, hrun₁, hch₁, hnew⟩ := edit_fresh hs hroom hg
  have h₁ : s₁.view id = some f := by rw [hch₁.frame (by simpa using hne.symm), h]
  obtain ⟨s₂, hrun₂, hch₂, hview⟩ := edit_known hch₁.sound
    (by rw [hch₁.count]; exact Nat.lt_succ_of_lt hlt) h₁ he
  refine ⟨s₂, by rw [bind_ok hrun₁, hrun₂], hch₁.trans hch₂, ?_, hview⟩
  rw [hch₂.frame (by simpa using hne), hnew]

end Pager

end PagedTable
