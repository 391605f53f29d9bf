import PagedTable.Proofs.Action.Triple
import PagedTable.Proofs.Pager.Flush

/-!
# Accesses that break no promise

* `Pager.Shows m`: the pager is sound and shows `m`. Loading pages keeps this up, and what is loaded
  is what `m` has (`fetch_safe`, `node_safe`).
* `Pager.Fits id`: the pager is sound, and page `id` counts no more keys than a page has room for.
  Writes keep this up if they leave no greater count (`edit_safe`, `edit_triple`).
* `flush_safe`: writing back.
-/

namespace PagedTable

open PagedTable.Action

/-- The page counts no more keys than a page has room for. -/
def View.Fits (m : View) (id : PageId) : Prop :=
  ∀ f, m id = some f → f.page.count ≤ internalCapacity

variable {m : View} {id : PageId} {kind : NodeKind} {p : Page}

theorem View.count_le_internal (h : m.node? id = some (kind, p)) : p.count ≤ internalCapacity := by
  have hle := View.count_le h
  cases kind with
  | leaf => exact Nat.le_trans hle Page.leafCapacity_le
  | internal => exact hle

/-- A page that is loaded as a node fits. -/
theorem View.fits_of_node? (h : m.node? id = some (kind, p)) : m.Fits id := by
  obtain ⟨⟨d, hd⟩, -⟩ := View.node?_eq_some_iff.mp h
  intro f hf
  rw [hd] at hf
  cases hf
  exact View.count_le_internal h

namespace Pager

variable {root : PageId} {α : Type} {φ : α → Prop} {x : Action Pager α} {g : Page → Option Page}

/-- The pager is sound and shows `m`. -/
def Shows (m : View) (s : Pager) : Prop := s.Sound ∧ s.view = m

/-- The pager is sound, and the page fits. -/
def Fits (id : PageId) (s : Pager) : Prop := s.Sound ∧ s.view.Fits id

theorem fetch_safe (m : View) (id : PageId) :
    Safe (Shows m) (fetch id) fun p => ∃ d, m id = some ⟨p, d⟩ := by
  refine ⟨?_⟩
  rintro s ⟨hs, rfl⟩
  cases hv : s.view id with
  | none =>
    obtain ⟨e, he⟩ := fetch_error hv
    rw [he]
    exact ⟨Fault.noConfusion, hs, rfl⟩
  | some f =>
    rw [fetch_run hv]
    exact ⟨⟨f.dirty, rfl⟩, hs.fetched id, view_fetched s id⟩

/-- Only nodes that the view shows are loaded. -/
theorem node_safe (m : View) (id : PageId) :
    Safe (Shows m) (node id) fun r => m.node? id = some r := by
  refine (fetch_safe m id).bind fun p ⟨d, hp⟩ => (Safe.ofExcept _).bind fun kind hk => .pure ?_
  have hload : p.load id = .ok kind := by
    cases hl : p.load id with
    | error e =>
      rw [hl] at hk
      cases hk
    | ok k =>
      rw [hl] at hk
      cases hk
      rfl
  exact View.node?_eq_some_iff.mpr ⟨⟨d, hp⟩, Page.load_eq_ok_iff.mp hload⟩

/-- An action that writes starts from what the pager shows. -/
theorem triple_of_view {Q : α → Pager → Prop}
    (h : ∀ m, m.Fits id → Triple (Shows m) x Q (Fits id)) : Triple (Fits id) x Q (Fits id) :=
  ⟨fun s hs => (h s.view hs.2).run s ⟨hs.1, rfl⟩⟩

theorem Shows.fits (hm : m.Fits id) : ∀ s, Shows m s → Fits id s := by
  rintro s ⟨hs, rfl⟩
  exact ⟨hs, hm⟩

/-- A sound pager shows something. -/
theorem safe_of_view (h : ∀ m, Triple (Shows m) x (fun a s => φ a ∧ s.Sound) Sound) :
    Safe Sound x φ :=
  ⟨fun s hs => (h s.view).run s ⟨hs, rfl⟩⟩

/-- What loads nodes only keeps the root fit. -/
theorem safe_of_shows (h : ∀ m, m.Fits id → Safe (Shows m) x φ) : Safe (Fits id) x φ :=
  triple_of_view fun m hm => (h m hm).after
    (fun _ s ha => ⟨ha.1, Shows.fits hm s ha.2⟩) (Shows.fits hm)

theorem allocate_safe {P : Pager → Prop} : Safe P allocate fun _ => True :=
  .state fun _ => .pure trivial

/-- A change that is possible on the page that is shown, and leaves no greater count than there is
room for. -/
theorem edit_triple (hm : m.Fits root)
    (h : ∀ f, m id = some f → ∃ q, g f.page = some q ∧
      (f.page.count ≤ internalCapacity → q.count ≤ internalCapacity)) :
    Triple (Shows m) (edit id g) (fun _ => Fits root) (Fits root) := by
  refine ⟨?_⟩
  rintro s ⟨hs, rfl⟩
  cases hv : s.view id with
  | none =>
    obtain ⟨e, he⟩ := fetch_error hv
    unfold edit
    rw [bind_error he]
    exact ⟨Fault.noConfusion, hs, hm⟩
  | some f =>
    obtain ⟨q, hg, hq⟩ := h f hv
    rw [edit_run hv hg]
    refine ⟨hs.wrote (index_lt_of_view hv) q, fun f' hf' => ?_⟩
    rw [view_wrote hv] at hf'
    by_cases hid : root = id
    · subst hid
      rw [Function.update_self] at hf'
      cases hf'
      exact hq (hm f hv)
    · rw [Function.update_of_ne hid] at hf'
      exact hm f' hf'

/-- A change that is always possible. -/
theorem edit_safe (h : ∀ p, ∃ q, g p = some q ∧
    (p.count ≤ internalCapacity → q.count ≤ internalCapacity)) :
    Safe (Fits root) (edit id g) fun _ => True :=
  triple_of_view fun _ hm => (edit_triple hm fun f _ => h f.page).after
    (fun _ _ ha => ⟨trivial, ha⟩) fun _ hs => hs

/-- **Writing back** comes to an end, or the medium refuses a page. -/
theorem flush_safe : Safe Sound flush fun _ => True := by
  have hslot : ∀ i, i < maxPages → Safe Sound (flushSlot i) fun _ => True := by
    refine fun i hi => ⟨fun s hs => ?_⟩
    rcases flushSlot_cases s hi with ⟨-, hrun⟩ | ⟨f, -, -, hrun⟩ | ⟨f, hf, -, hrun⟩
    · rw [hrun]
      exact ⟨trivial, hs⟩
    · rw [hrun]
      exact ⟨Fault.noConfusion, hs⟩
    · rw [hrun]
      exact ⟨trivial, hs.saved hf⟩
  refine ⟨fun s hs => ?_⟩
  have hslots : Safe Sound ((List.range s.count).forM flushSlot) fun _ => True :=
    .forM fun i hi => hslot i (Nat.lt_of_lt_of_le (List.mem_range.mp hi) hs.count_le)
  exact ((Safe.require hs.count_le).bind fun _ _ => hslots).run s hs

end Pager

end PagedTable
