import Mathlib.Logic.Function.Basic
import Mathlib.Logic.Relation
import PagedTable.Node.Lemmas
import PagedTable.Tree.Basic

/-!
# What a pager shows

A pager is known to the tree above it by what fetching a page answers. `Pager.view` says this for
every page number at once, whether the page is cached, waits in the file, or is still to be made.

* `fetch_run`, `node_run`: what an access answers, read off the view. It leaves the view as it is
  (`Pager.view_fetched`).
* `edit_run`: a change of a page leaves the view updated at that page (`Pager.view_wrote`).
* `Pager.Sound`: no page at or above the page count is cached or in the file. Every pager that was
  opened from a file and used since is sound (`Pager.Reachable.sound`, in `Proofs.Pager.Reachable`).
* `Pager.Seen`: a state reached by loading nodes alone, which keeps the view, the page count and
  soundness.
-/

namespace PagedTable

open PagedTable.Action

/-- The frame that the slot of each page holds once the page is fetched. It is missing where a
fetch fails. -/
abbrev View := PageId → Option Frame

/-- The node that a page is read as: its kind and its bytes, if it loads. -/
def View.node? (m : View) (id : PageId) : Option (NodeKind × Page) :=
  match m id with
  | none => none
  | some f => match f.page.load id with
    | .ok kind => some (kind, f.page)
    | .error _ => none

theorem View.node?_eq_some_iff {m : View} {id : PageId} {kind : NodeKind} {p : Page} :
    m.node? id = some (kind, p) ↔
      (∃ dirty, m id = some ⟨p, dirty⟩) ∧ p.tag = kind.tag ∧ p.count ≤ Page.capacity kind := by
  unfold View.node?
  rw [← @Page.load_eq_ok_iff p id kind]
  cases h : m id with
  | none => simp
  | some f =>
    obtain ⟨q, d⟩ := f
    cases hl : q.load id with
    | error e =>
      simp only [hl, reduceCtorEq, Option.some.injEq, Frame.mk.injEq, exists_and_left, exists_eq',
        and_true, false_iff, not_and]
      rintro rfl
      simp [hl]
    | ok k =>
      simp only [hl, Option.some.injEq, Prod.mk.injEq, Frame.mk.injEq, exists_and_left,
        exists_eq', and_true]
      constructor
      · rintro ⟨rfl, rfl⟩
        exact ⟨rfl, hl⟩
      · rintro ⟨rfl, h'⟩
        rw [hl] at h'
        cases h'
        exact ⟨rfl, rfl⟩

/-- A node's page holds no more than it has room for. -/
theorem View.count_le {m : View} {id : PageId} {kind : NodeKind} {p : Page}
    (h : m.node? id = some (kind, p)) : p.count ≤ Page.capacity kind :=
  (View.node?_eq_some_iff.mp h).2.2

theorem View.node?_congr {m m' : View} {id : PageId} (h : m' id = m id) :
    m'.node? id = m.node? id := by
  unfold View.node?
  rw [h]

/-- A new page is no node. -/
theorem View.node?_of_zero {m : View} {id : PageId} {d : Bool} (h : m id = some ⟨Page.zero, d⟩) :
    m.node? id = none := by
  refine Option.eq_none_iff_forall_not_mem.mpr fun ⟨kind, p⟩ hn => ?_
  obtain ⟨⟨d', hd⟩, htag, -⟩ := View.node?_eq_some_iff.mp hn
  cases hd.symm.trans h
  rw [Page.tag, Page.byte_zero] at htag
  cases kind <;> cases htag

namespace Pager

variable {s s' : Pager} {id j : PageId} {f : Frame} {p : Page} {kind : NodeKind}

/-- What the pager shows at each page. -/
def view (s : Pager) : View := fun id =>
  if maxPages ≤ id.index then none
  else match s.frame? id with
    | some f => some f
    | none =>
      if id.number < s.disk.pages then
        if id.offset + pageSize ≤ s.disk.bytes.size then
          some { page := Page.ofBytesAt s.disk.bytes id.offset }
        else none
      else some { page := Page.zero, dirty := true }

/-- The pager after a page was fetched, whether the fetch succeeded or not. -/
def fetched (s : Pager) (id : PageId) : Pager := (fetch id s).2

/-- The pager after a read of the file was counted. -/
def charged (s : Pager) : Pager := { s with disk := { s.disk with reads := s.disk.reads + 1 } }

/-- The pager after the bytes of a page were replaced. -/
def wrote (s : Pager) (id : PageId) (p : Page) : Pager :=
  (s.fetched id).hold id { page := p, dirty := true }

/-! ## Slots -/

theorem index_lt_of_view (h : s.view id = some f) : id.index < maxPages := by
  unfold view at h
  split at h
  · cases h
  · omega

theorem view_of_frame? (hid : id.index < maxPages) (h : s.frame? id = some f) :
    s.view id = some f := by
  have hid' : ¬ maxPages ≤ id.index := by omega
  simp only [view]
  rw [if_neg hid', h]

theorem index_lt_of_frame? (h : s.frame? id = some f) : id.index < maxPages := by
  unfold frame? at h
  by_cases hid : id.index < maxPages
  · exact hid
  · rw [Vector.getElem?_eq_none (by omega)] at h
    cases h

theorem frame?_hold (hid : id.index < maxPages) (j : PageId) :
    (s.hold id f).frame? j = if j = id then some f else s.frame? j := by
  unfold frame? hold
  by_cases hj : j = id
  · subst hj
    rw [if_pos rfl, Vector.getElem?_setIfInBounds_self_of_lt (by simpa using hid)]
    rfl
  · rw [if_neg hj, Vector.getElem?_setIfInBounds_ne]
    intro h
    exact hj (PageId.index_inj.mp h).symm

/-! ## Fetching -/

/-- Reading a page of the file that the file holds. -/
theorem readPage_run {d : Disk} (h : id.offset + pageSize ≤ d.bytes.size) :
    Disk.readPage id d =
      (.ok (Page.ofBytesAt d.bytes id.offset), { d with reads := d.reads + 1 }) := by
  have hread : Disk.readPages id 1 pageSize d =
      (.ok (d.bytes.extract id.offset (id.offset + pageSize)),
        { d with reads := d.reads + 1 }) := by
    unfold Disk.readPages
    rw [bind_ok (require_apply_of (by omega) d), bind_ok (state_apply d), if_pos (.inr h)]
    rfl
  have hpage : Page.ofBytesAt (d.bytes.extract id.offset (id.offset + pageSize)) 0 =
      Page.ofBytesAt d.bytes id.offset := by
    apply Page.ext_byte
    intro i hi
    rw [Page.byte_ofBytesAt _ _ hi, Page.byte_ofBytesAt _ _ hi]
    simp only [Nat.zero_add, Array.getD_eq_getD_getElem?]
    have hi : i < min (id.offset + pageSize) d.bytes.size - id.offset := by omega
    rw [Array.getElem?_extract, if_pos hi]
  unfold Disk.readPage
  rw [bind_ok hread, pure_apply, hpage]

/-- A page that the file ends before is refused. -/
theorem readPage_short {d : Disk} (h : ¬ id.offset + pageSize ≤ d.bytes.size) :
    Disk.readPage id d = (.error (.refused (.corruptFile (.shortRead pageSize id))), d) := by
  have hread : Disk.readPages id 1 pageSize d =
      (.error (.refused (.corruptFile (.shortRead pageSize id))), d) := by
    unfold Disk.readPages
    have hroom : ¬ (pageSize = 0 ∨ id.offset + pageSize ≤ d.bytes.size) := by
      rintro (h' | h')
      · exact absurd h' (by decide)
      · exact h h'
    rw [bind_ok (require_apply_of (by omega) d), bind_ok (state_apply d), if_neg hroom]
    rfl
  unfold Disk.readPage
  rw [bind_error hread]

/-- **All that a fetch can do.** It fails and changes nothing, finds the page cached and changes
nothing, loads it from the file, or makes it. -/
theorem fetch_cases (s : Pager) (id : PageId) :
    (s.view id = none ∧ ∃ e, fetch id s = (.error (.refused e), s)) ∨
    (∃ f, s.view id = some f ∧ s.frame? id = some f ∧ fetch id s = (.ok f.page, s)) ∨
    (∃ f, s.view id = some f ∧ s.frame? id = none ∧ id.number < s.disk.pages ∧
      fetch id s = (.ok f.page, s.charged.hold id f)) ∨
    (∃ f, s.view id = some f ∧ s.frame? id = none ∧ ¬ id.number < s.disk.pages ∧
      f = { page := Page.zero, dirty := true } ∧ fetch id s = (.ok f.page, s.hold id f)) := by
  unfold view fetch
  by_cases hid : maxPages ≤ id.index
  · simp only [if_pos hid, refuse_apply, true_and]
    exact .inl ⟨_, rfl⟩
  simp only [if_neg hid]
  rw [bind_ok (state_apply s)]
  cases hf : s.frame? id with
  | some f => exact .inr (.inl ⟨f, rfl, rfl, rfl⟩)
  | none =>
    by_cases hn : id.number < s.disk.pages
    · simp only [if_pos hn]
      by_cases hb : id.offset + pageSize ≤ s.disk.bytes.size
      · have hdisk : onDisk (Disk.readPage id) s =
            (.ok (Page.ofBytesAt s.disk.bytes id.offset), s.charged) := by
          unfold onDisk onPart
          rw [readPage_run hb]
          rfl
        rw [bind_ok hdisk, if_pos hb]
        exact .inr (.inr (.inl ⟨_, rfl, trivial, hn, rfl⟩))
      · have hdisk : onDisk (Disk.readPage id) s =
            (.error (.refused (.corruptFile (.shortRead pageSize id))), s) := by
          unfold onDisk onPart
          rw [readPage_short hb]
        rw [bind_error hdisk, if_neg hb]
        exact .inl ⟨rfl, _, rfl⟩
    · simp only [if_neg hn]
      exact .inr (.inr (.inr ⟨_, rfl, trivial, hn, rfl, rfl⟩))

/-- A fetch answers the page that the view shows. -/
theorem fetch_run (h : s.view id = some f) : fetch id s = (.ok f.page, s.fetched id) := by
  unfold fetched
  rcases fetch_cases s id with ⟨hn, -⟩ | ⟨g, hg, -, hr⟩ | ⟨g, hg, -, -, hr⟩ | ⟨g, hg, -, -, -, hr⟩
  · rw [hn] at h
    cases h
  all_goals
    rw [hr]
    rw [h] at hg
    cases hg
    rfl

/-- A fetch fails where the view shows nothing, and then it changes nothing. -/
theorem fetch_error (h : s.view id = none) : ∃ e, fetch id s = (.error (.refused e), s) := by
  rcases fetch_cases s id with ⟨-, hr⟩ | ⟨g, hg, -⟩ | ⟨g, hg, -⟩ | ⟨g, hg, -⟩
  · exact hr
  all_goals
    rw [h] at hg
    cases hg

/-- A fetch puts the frame that the view shows into the slot and leaves all other slots. -/
theorem frame?_fetched (h : s.view id = some f) (j : PageId) :
    (s.fetched id).frame? j = if j = id then some f else s.frame? j := by
  unfold fetched
  have hid := index_lt_of_view h
  rcases fetch_cases s id with ⟨hn, -⟩ | ⟨g, hg, hfr, hr⟩ | ⟨g, hg, -, -, hr⟩ | ⟨g, hg, -, -, -, hr⟩
  · rw [hn] at h
    cases h
  all_goals
    rw [hr]
    rw [h] at hg
    cases hg
  · split
    · rename_i he
      rw [he, hfr]
    · rfl
  · exact frame?_hold hid j
  · exact frame?_hold hid j

theorem fetched_of_view_none (h : s.view id = none) : s.fetched id = s := by
  obtain ⟨e, he⟩ := fetch_error h
  rw [fetched, he]

theorem bytes_fetched (s : Pager) (id : PageId) :
    (s.fetched id).disk.bytes = s.disk.bytes ∧ (s.fetched id).disk.pages = s.disk.pages := by
  unfold fetched
  rcases fetch_cases s id with ⟨-, e, hr⟩ | ⟨g, -, -, hr⟩ | ⟨g, -, -, -, hr⟩ | ⟨g, -, -, -, -, hr⟩
  all_goals
    rw [hr]
    exact ⟨rfl, rfl⟩

theorem count_fetched (s : Pager) (id : PageId) :
    (s.fetched id).count = s.count ∨
      (s.fetched id).count = max s.count (id.index + 1) ∧ s.frame? id = none := by
  unfold fetched
  rcases fetch_cases s id with ⟨-, e, hr⟩ | ⟨g, -, -, hr⟩ | ⟨g, -, hn, -, hr⟩ | ⟨g, -, hn, -, -, hr⟩
  · rw [hr]; exact .inl rfl
  · rw [hr]; exact .inl rfl
  · rw [hr]; exact .inr ⟨rfl, hn⟩
  · rw [hr]; exact .inr ⟨rfl, hn⟩

/-- Fetching a page shows no other page differently, nor that page. -/
@[simp] theorem view_fetched (s : Pager) (id : PageId) : (s.fetched id).view = s.view := by
  cases h : s.view id with
  | none => rw [fetched_of_view_none h]
  | some f =>
    funext j
    by_cases hj : j = id
    · subst hj
      rw [h]
      exact view_of_frame? (index_lt_of_view h) (by rw [frame?_fetched h, if_pos rfl])
    · unfold view
      rw [frame?_fetched h, if_neg hj, (bytes_fetched s id).1, (bytes_fetched s id).2]

/-! ## Nodes -/

/-- A node that the view shows is answered. -/
theorem node_run (h : s.view.node? id = some (kind, p)) :
    Pager.node id s = (.ok (kind, p), s.fetched id) := by
  obtain ⟨⟨d, hd⟩, ht, hc⟩ := View.node?_eq_some_iff.mp h
  unfold Pager.node
  have hl : p.load id = .ok kind := Page.load_eq_ok_iff.mpr ⟨ht, hc⟩
  rw [bind_ok (fetch_run hd), hl]
  rfl

/-- A node is cached as the view shows it, or waits in the file. -/
theorem frame?_of_node (hn : s.view.node? id = some (kind, p)) (h : s.view id = some f) :
    s.frame? id = some f ∨ s.frame? id = none ∧ f.dirty = false := by
  have hid : ¬ maxPages ≤ id.index := Nat.not_le.mpr (index_lt_of_view h)
  have hslot := h
  simp only [view] at hslot
  rw [if_neg hid] at hslot
  cases hf : s.frame? id with
  | some g =>
    rw [hf] at hslot
    exact .inl hslot
  | none =>
    rw [hf] at hslot
    dsimp only at hslot
    split at hslot
    · split at hslot
      · exact .inr ⟨rfl, by rw [← Option.some.inj hslot]⟩
      · cases hslot
    · rw [View.node?_of_zero (h.trans hslot.symm)] at hn
      cases hn

/-- Only nodes that the view shows are answered. -/
theorem node?_of_node (h : Pager.node id s = (.ok (kind, p), s')) :
    s.view.node? id = some (kind, p) ∧ s' = s.fetched id := by
  unfold Pager.node at h
  cases hv : s.view id with
  | none =>
    obtain ⟨e, he⟩ := fetch_error hv
    rw [bind_error he] at h
    cases h
  | some f =>
    rw [bind_ok (fetch_run hv)] at h
    cases hl : f.page.load id with
    | error e =>
      rw [hl] at h
      cases h
    | ok k =>
      rw [hl] at h
      have hk : (Except.ok k : Except TreeFlaw NodeKind).mapError DbError.treeCorrupted = .ok k :=
        rfl
      simp only [hk, bind_apply, ofExcept_ok_apply, pure_apply, Prod.mk.injEq,
        Except.ok.injEq] at h
      obtain ⟨⟨rfl, rfl⟩, rfl⟩ := h
      refine ⟨?_, rfl⟩
      simp only [View.node?, hv, hl]

/-! ## Changing a page -/

theorem edit_run {g : Page → Option Page} {q : Page} (h : s.view id = some f)
    (hg : g f.page = some q) : edit id g s = (.ok (), s.wrote id q) := by
  unfold edit
  rw [bind_ok (fetch_run h), hg]
  rfl

/-- **All that a change of a page can do.** It fails where there is no page, else the page is
written, if only as it was. -/
theorem edited_cases (s : Pager) (id : PageId) (g : Page → Option Page) :
    s.view id = none ∧ (edit id g s).2 = s ∨
      ∃ f q, s.view id = some f ∧ (g f.page = some q ∨ q = f.page) ∧
        (edit id g s).2 = s.wrote id q := by
  unfold edit
  cases hv : s.view id with
  | none =>
    obtain ⟨e, he⟩ := fetch_error hv
    rw [bind_error he]
    exact .inl ⟨rfl, rfl⟩
  | some f =>
    right
    rw [bind_ok (fetch_run hv)]
    cases hg : g f.page with
    | some q => exact ⟨f, q, rfl, .inl hg, rfl⟩
    | none => exact ⟨f, f.page, rfl, .inr rfl, rfl⟩

/-- A change of a page is seen at that page alone, which becomes dirty. -/
theorem view_wrote (h : s.view id = some f) (p : Page) :
    (s.wrote id p).view = Function.update s.view id (some { page := p, dirty := true }) := by
  have hid := index_lt_of_view h
  funext j
  by_cases hj : j = id
  · subst hj
    rw [Function.update_self]
    exact view_of_frame? hid (by rw [wrote, frame?_hold hid, if_pos rfl])
  · rw [Function.update_of_ne hj, ← view_fetched s id]
    unfold view
    rw [wrote, frame?_hold hid, if_neg hj]
    rfl

theorem frame?_wrote (h : s.view id = some f) (p : Page) (j : PageId) :
    (s.wrote id p).frame? j = if j = id then some { page := p, dirty := true } else s.frame? j := by
  rw [wrote, frame?_hold (index_lt_of_view h), frame?_fetched h]
  split <;> rfl

/-! ## Sound pagers -/

/-- What every pager keeps to: pages that are cached or in the file lie below the page count, and
the page count is within the limit. -/
structure Sound (s : Pager) : Prop where
  cached_lt : ∀ {id f}, s.frame? id = some f → id.index < s.count
  pages_le : s.disk.pages.toNat ≤ s.count
  count_le : s.count ≤ maxPages

/-- At and above the page count a sound pager shows new pages. -/
theorem Sound.view_of_count_le (h : s.Sound) (hid : id.index < maxPages)
    (hc : s.count ≤ id.index) : s.view id = some { page := Page.zero, dirty := true } := by
  have hfr : s.frame? id = none := by
    by_contra hne
    obtain ⟨f, hf⟩ := Option.ne_none_iff_exists'.mp hne
    have := h.cached_lt hf
    omega
  have hn : ¬ id.number < s.disk.pages := by
    intro hlt
    have : id.index < s.disk.pages.toNat := UInt32.lt_iff_toNat_lt.mp hlt
    have := h.pages_le
    omega
  have hid' : ¬ maxPages ≤ id.index := by omega
  simp only [view]
  rw [if_neg hid', hfr]
  exact if_neg hn

/-- A node lies below the page count. -/
theorem Sound.index_lt_count (h : s.Sound) (hn : s.view.node? id = some (kind, p)) :
    id.index < s.count := by
  by_contra hc
  obtain ⟨⟨d, hd⟩, -⟩ := View.node?_eq_some_iff.mp hn
  rw [View.node?_of_zero (h.view_of_count_le (index_lt_of_view hd) (by omega))] at hn
  cases hn

theorem Sound.hold (h : s.Sound) (hid : id.index < maxPages) (f : Frame) :
    (s.hold id f).Sound := by
  refine ⟨?_, ?_, ?_⟩
  · intro j g hj
    rw [frame?_hold hid] at hj
    show j.index < max s.count (id.index + 1)
    split at hj
    · rename_i he
      subst he
      omega
    · have := h.cached_lt hj
      omega
  · have := h.pages_le
    show s.disk.pages.toNat ≤ max s.count (id.index + 1)
    omega
  · have := h.count_le
    show max s.count (id.index + 1) ≤ maxPages
    omega

theorem Sound.fetched (h : s.Sound) (id : PageId) : (s.fetched id).Sound := by
  unfold Pager.fetched
  rcases fetch_cases s id with ⟨-, e, hr⟩ | ⟨g, -, -, hr⟩ | ⟨g, hg, -, -, hr⟩ | ⟨g, hg, -, -, -, hr⟩
  · rw [hr]
    exact h
  · rw [hr]
    exact h
  · rw [hr]
    have hc : s.charged.Sound := ⟨h.cached_lt, h.pages_le, h.count_le⟩
    exact hc.hold (index_lt_of_view hg) g
  · rw [hr]
    exact h.hold (index_lt_of_view hg) g

theorem Sound.wrote (h : s.Sound) (hid : id.index < maxPages) (p : Page) :
    (s.wrote id p).Sound :=
  (h.fetched id).hold hid _

/-- Fetching a page below the page count keeps the count. -/
theorem count_fetched_of_lt (hid : id.index < s.count) : (s.fetched id).count = s.count := by
  rcases count_fetched s id with h | ⟨h, -⟩
  · exact h
  · rw [h]
    omega

/-- Writing a page makes it count. -/
theorem count_wrote (s : Pager) (id : PageId) (p : Page) :
    (s.wrote id p).count = max s.count (id.index + 1) := by
  show max (s.fetched id).count (id.index + 1) = _
  rcases count_fetched s id with hc | ⟨hc, -⟩ <;> rw [hc]
  omega

/-! ## Loading nodes -/

/-- `s'` is `s` after some nodes were loaded. -/
def Seen : Pager → Pager → Prop :=
  Relation.ReflTransGen fun s s' => ∃ id, (s.view.node? id).isSome ∧ s' = s.fetched id

theorem Seen.refl (s : Pager) : s.Seen s := Relation.ReflTransGen.refl

theorem Seen.trans {s'' : Pager} (h : s.Seen s') (h' : s'.Seen s'') : s.Seen s'' :=
  Relation.ReflTransGen.trans h h'

theorem Seen.node (h : s.view.node? id = some (kind, p)) : s.Seen (s.fetched id) :=
  Relation.ReflTransGen.single ⟨id, by rw [h]; rfl, rfl⟩

/-- Loading a node that the view shows. -/
theorem node_seen (h : s.view.node? id = some (kind, p)) :
    ∃ s', s.Seen s' ∧ Pager.node id s = (.ok (kind, p), s') :=
  ⟨s.fetched id, .node h, node_run h⟩

theorem Seen.view (h : s.Seen s') : s'.view = s.view := by
  induction h with
  | refl => rfl
  | tail _ hstep ih =>
    obtain ⟨id, -, rfl⟩ := hstep
    rw [view_fetched, ih]

theorem Seen.sound (h : s.Seen s') (hs : s.Sound) : s'.Sound ∧ s'.count = s.count := by
  induction h with
  | refl => exact ⟨hs, rfl⟩
  | tail _ hstep ih =>
    obtain ⟨id, hid, rfl⟩ := hstep
    obtain ⟨⟨kind, p⟩, hn⟩ := Option.isSome_iff_exists.mp hid
    refine ⟨ih.1.fetched id, ?_⟩
    rw [count_fetched_of_lt (ih.1.index_lt_count hn), ih.2]

end Pager

end PagedTable
