import PagedTable.Proofs.Action.Ends
import PagedTable.Proofs.Pager.Faithful

/-!
# Looking at pages

An operation that only reads loads nodes, and ends at the first page that does not pass for one. The
fetch of that page is the only one that can put a page into the cache that was not in the file.

* `Pager.StuckAt`: the pager after nodes were loaded, and after an attempt at one more page that is
  no node. Trying again at this page changes nothing (`fetched_again`).
* `Pager.Peeked`: the same for some page. `Peeked.cached`, `Peeked.bytes`, `Peeked.view`: what was
  cached is cached as it was, the file is the same, and so is what the pages show.
* `Faithful.peeked`: if nobody else writes to the file, at most one page has come in, of zero bytes.
* `Pager.Peeks`: an operation that comes to a value has loaded nodes only, and one that does not has
  tried one more page at most.
-/

namespace PagedTable

open PagedTable.Action

namespace Pager

variable {s s' : Pager} {id : PageId} {f : Frame} {kind : NodeKind} {p : Page}

/-! ## Fetching again -/

/-- A page that is cached is found. -/
theorem fetched_of_frame? (h : s.frame? id = some f) : s.fetched id = s := by
  unfold fetched
  rcases fetch_cases s id with ⟨-, e, hr⟩ | ⟨g, -, -, hr⟩ | ⟨g, -, hn, -⟩ | ⟨g, -, hn, -⟩
  · rw [hr]
  · rw [hr]
  all_goals
    rw [h] at hn
    cases hn

theorem fetched_again (s : Pager) (id : PageId) : (s.fetched id).fetched id = s.fetched id := by
  cases hv : s.view id with
  | none => rw [fetched_of_view_none hv, fetched_of_view_none hv]
  | some f => exact fetched_of_frame? (by rw [frame?_fetched hv, if_pos rfl])

/-- A page that is no node is refused once it is fetched. -/
theorem node_fails (h : s.view.node? id = none) :
    ∃ e, Pager.node id s = (.error (.refused e), s.fetched id) := by
  rcases hr : Pager.node id s with ⟨e | ⟨kind, p⟩, s'⟩
  · unfold Pager.node at hr
    cases hv : s.view id with
    | none =>
      obtain ⟨e', he'⟩ := fetch_error hv
      rw [bind_error he'] at hr
      cases hr
      exact ⟨e', by rw [fetched_of_view_none hv]⟩
    | some f =>
      rw [bind_ok (fetch_run hv)] at hr
      cases hl : f.page.load id with
      | error flaw =>
        rw [hl] at hr
        cases hr
        exact ⟨_, rfl⟩
      | ok kind =>
        rw [hl] at hr
        cases hr
  · rw [(node?_of_node hr).1] at h
    cases h

/-- A fetch leaves what is cached as it is. -/
theorem frame?_fetched_of_some {j : PageId} (h : s.frame? j = some f) (id : PageId) :
    (s.fetched id).frame? j = some f := by
  cases hv : s.view id with
  | none => rwa [fetched_of_view_none hv]
  | some g =>
    rw [frame?_fetched hv]
    split
    · rename_i hj
      rw [← hv, ← hj, view_of_frame? (index_lt_of_frame? h) h]
    · exact h

/-! ## Pagers that were looked at -/

/-- `s'` is `s` after some nodes were loaded, and perhaps after an attempt at page `id`, which is no
node. -/
def StuckAt (s : Pager) (id : PageId) (s' : Pager) : Prop :=
  s.Seen s' ∨ ∃ s₁, s.Seen s₁ ∧ s.view.node? id = none ∧ s' = s₁.fetched id

/-- `s'` is `s` after some nodes were loaded, and after an attempt at one more page at most. -/
def Peeked (s s' : Pager) : Prop := ∃ id, s.StuckAt id s'

theorem Seen.peeked (h : s.Seen s') : s.Peeked s' := ⟨⟨0⟩, .inl h⟩

theorem Seen.stuckAt (h : s.Seen s') : s.StuckAt id s' := .inl h

theorem StuckAt.peeked (h : s.StuckAt id s') : s.Peeked s' := ⟨id, h⟩

theorem Seen.cached (h : s.Seen s') (hf : s.frame? id = some f) : s'.frame? id = some f := by
  induction h with
  | refl => exact hf
  | tail _ hstep ih =>
    obtain ⟨j, -, rfl⟩ := hstep
    exact frame?_fetched_of_some ih j

/-- **What is cached stays as it is**: the same bytes, and dirty if they were. -/
theorem Peeked.cached (h : s.Peeked s') (hf : s.frame? id = some f) : s'.frame? id = some f := by
  rcases h with ⟨j, hseen | ⟨s₁, hseen, -, rfl⟩⟩
  · exact hseen.cached hf
  · exact frame?_fetched_of_some (hseen.cached hf) j

theorem Seen.bytes (h : s.Seen s') : s'.disk.bytes = s.disk.bytes := by
  induction h with
  | refl => rfl
  | tail _ hstep ih =>
    obtain ⟨j, -, rfl⟩ := hstep
    exact (bytes_fetched _ j).1.trans ih

/-- **The file is not written to.** -/
theorem Peeked.bytes (h : s.Peeked s') : s'.disk.bytes = s.disk.bytes := by
  rcases h with ⟨j, hseen | ⟨s₁, hseen, -, rfl⟩⟩
  · exact hseen.bytes
  · exact (bytes_fetched s₁ j).1.trans hseen.bytes

/-- What the pages show stays as it is. -/
theorem Peeked.view (h : s.Peeked s') : s'.view = s.view := by
  obtain ⟨id, hseen | ⟨s₁, hseen, -, rfl⟩⟩ := h
  · exact hseen.view
  · rw [view_fetched, hseen.view]

/-- **At most one page has come in**, of zero bytes, if nothing but the cache writes to the file:
all nodes are cached. -/
theorem Faithful.peeked (h : s.Faithful) (hs' : s.Peeked s') :
    s' = s ∨ ∃ id dirty, s.frame? id = none ∧
      ∀ j, s'.frame? j = if j = id then some { page := Page.zero, dirty } else s.frame? j := by
  rcases hs' with ⟨id, hseen | ⟨s₁, hseen, -, rfl⟩⟩
  · exact .inl (h.seen hseen)
  · rw [h.seen hseen]
    cases hf : s.frame? id with
    | some f => exact .inl (fetched_of_frame? hf)
    | none =>
      by_cases hid : id.index < maxPages
      · obtain ⟨dirty, hv⟩ := h.view_eq hid
        rw [shown_of_frame?_eq_none hf] at hv
        exact .inr ⟨id, dirty, hf, frame?_fetched hv⟩
      · exact .inl (congrArg Prod.snd (fetch_beyond hid s))

/-! ## Operations that look -/

/-- An operation on a state with a pager in it that comes to a value has loaded nodes. One that does
not has tried one more page at most. -/
def Peeks {σ α : Type} (part : σ → Pager) (s : Pager) (x : Action σ α) : Prop :=
  Ends (fun w => s.Seen (part w)) x (fun _ w => s.Seen (part w)) fun w => s.Peeked (part w)

/-- **A node that is asked for** is loaded, or its page is the one that the operation ends at. Until
then, the same page can be tried as often as one likes. -/
theorem node_ends (s : Pager) (id : PageId) :
    Ends (s.StuckAt id) (Pager.node id) (fun _ => s.Seen) (s.StuckAt id) := by
  refine ⟨fun s' hs' => ?_⟩
  have hview : s'.view = s.view := by
    rcases hs' with hseen | ⟨s₁, hseen, -, rfl⟩
    · exact hseen.view
    · rw [view_fetched, hseen.view]
  cases hn : s.view.node? id with
  | some r =>
    obtain ⟨kind, p⟩ := r
    rcases hs' with hseen | ⟨_, -, hnone, -⟩
    · have hn' : s'.view.node? id = some (kind, p) := hview ▸ hn
      rw [node_run hn']
      exact hseen.trans (.node hn')
    · rw [hn] at hnone
      cases hnone
  | none =>
    obtain ⟨e, he⟩ := node_fails (hview ▸ hn)
    rw [he]
    rcases hs' with hseen | ⟨s₁, hseen, -, rfl⟩
    · exact .inr ⟨s', hseen, hn, rfl⟩
    · exact .inr ⟨s₁, hseen, hn, fetched_again s₁ id⟩

namespace Peeks

variable {σ α β : Type} {part : σ → Pager} {x y : Action σ α} {g : α → Action σ β}

theorem bind (hx : Peeks part s x) (hg : ∀ a, Peeks part s (g a)) : Peeks part s (x >>= g) :=
  Ends.bind hx hg

theorem pure (a : α) : Peeks part s (pure a) := Ends.pure fun _ h => h

theorem fail (e : Fault) : Peeks part s (fail e : Action σ α) := Ends.fail fun _ h => h.peeked

theorem need (o : Option α) : Peeks part s (Action.need o) := Ends.need fun _ h => h.peeked

theorem require (p : Prop) [Decidable p] : Peeks part s (Action.require p) :=
  Ends.require fun _ h => h.peeked

theorem ite {p : Prop} [Decidable p] (hx : Peeks part s x) (hy : Peeks part s y) :
    Peeks part s (if p then x else y) := Ends.ite (fun _ => hx) fun _ => hy

end Peeks

theorem node_peeks (s : Pager) (id : PageId) : Peeks (fun s => s) s (Pager.node id) := by
  refine ⟨fun s' hs' => ?_⟩
  have h := (node_ends s id).run s' (.inl hs')
  rcases hr : Pager.node id s' with ⟨e | r, s''⟩
  · rw [hr] at h
    exact h.peeked
  · rw [hr] at h
    exact h

end Pager

end PagedTable
