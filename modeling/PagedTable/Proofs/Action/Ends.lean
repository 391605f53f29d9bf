import PagedTable.Action

/-!
# How an action ends

`Action.Ends P x Q E`: from a state with `P` the action `x` leaves `Q` when it comes to a value, and
`E` when it ends with a fault, whichever fault that is. No promise has to be kept for it, so it can
be shown of actions on pages that hold anything at all.

* `Ends.bind`, `Ends.state`, …: one lemma for each way of putting actions together.
* `Ends.attempt`: an action whose error is caught goes on from where the error left the state.
-/

namespace PagedTable

namespace Action

variable {σ τ α β : Type} {P P' E E' : σ → Prop} {Q Q' : α → σ → Prop} {R : β → σ → Prop}
  {x y : Action σ α} {f : α → Action σ β}

/-- From a state with `P` the action leaves `Q` with a value, and `E` without. -/
structure Ends (P : σ → Prop) (x : Action σ α) (Q : α → σ → Prop) (E : σ → Prop) : Prop where
  run : ∀ s, P s → match x s with
    | (.ok a, s') => Q a s'
    | (.error _, s') => E s'

namespace Ends

theorem before (h : Ends P x Q E) (hP : ∀ s, P' s → P s) : Ends P' x Q E :=
  ⟨fun s hs => h.run s (hP s hs)⟩

theorem after (h : Ends P x Q E) (hQ : ∀ a s, Q a s → Q' a s) (hE : ∀ s, E s → E' s) :
    Ends P x Q' E' := by
  refine ⟨fun s hs => ?_⟩
  have hx := h.run s hs
  rcases hr : x s with ⟨e | a, s'⟩
  · rw [hr] at hx
    exact hE s' hx
  · rw [hr] at hx
    exact hQ a s' hx

theorem bind (hx : Ends P x Q E) (hf : ∀ a, Ends (Q a) (f a) R E) : Ends P (x >>= f) R E := by
  refine ⟨fun s hs => ?_⟩
  have hxs := hx.run s hs
  rcases hr : x s with ⟨e | a, s'⟩
  · rw [hr] at hxs
    rw [bind_error hr]
    exact hxs
  · rw [hr] at hxs
    rw [bind_ok hr]
    exact (hf a).run s' hxs

theorem pure {a : α} (h : ∀ s, P s → Q a s) : Ends P (pure a) Q E := ⟨h⟩

theorem fail {e : Fault} (h : ∀ s, P s → E s) : Ends P (fail e) Q E := ⟨h⟩

theorem change {g : σ → σ} {Q : Unit → σ → Prop} (h : ∀ s, P s → Q () (g s)) :
    Ends P (change g) Q E := ⟨h⟩

theorem need {o : Option α} (hE : ∀ s, P s → E s) : Ends P (need o) (fun _ => P) E := by
  cases o with
  | none => exact fail hE
  | some a => exact pure fun _ hs => hs

theorem ofExcept {r : Except DbError α} (hE : ∀ s, P s → E s) :
    Ends P (ofExcept r) (fun _ => P) E := by
  cases r with
  | error e => exact fail hE
  | ok a => exact pure fun _ hs => hs

theorem require {p : Prop} [Decidable p] (hE : ∀ s, P s → E s) :
    Ends P (require p) (fun _ => P) E := by
  unfold Action.require
  split
  · exact pure fun _ hs => hs
  · exact fail hE

theorem ite {p : Prop} [Decidable p] (hx : p → Ends P x Q E) (hy : ¬ p → Ends P y Q E) :
    Ends P (if p then x else y) Q E := by
  split
  · exact hx (by assumption)
  · exact hy (by assumption)

/-- An action may look at the state. -/
theorem state {g : σ → Action σ β} (h : ∀ s, P s → Ends (fun t => t = s) (g s) R E) :
    Ends P (state >>= g) R E := ⟨fun s hs => (h s hs).run s rfl⟩

/-- The value, or the error, of an action that is refused. -/
theorem attempt (h : Ends P x Q E) : Ends P (attempt x)
    (fun r s => match r with
      | .ok a => Q a s
      | .error _ => E s) E := by
  refine ⟨fun s hs => ?_⟩
  have hxs := h.run s hs
  unfold Action.attempt
  rcases hr : x s with ⟨(e | _ | _) | a, s'⟩ <;> rw [hr] at hxs <;> exact hxs

/-- An action on a part of the state. -/
theorem onPart {part : τ → σ} {withPart : τ → σ → τ} {P' : τ → Prop} {Q' : α → τ → Prop}
    {E' : τ → Prop} (h : ∀ t, P' t → ∃ P Q E, P (part t) ∧ Ends P x Q E ∧
      (∀ a s, Q a s → Q' a (withPart t s)) ∧ ∀ s, E s → E' (withPart t s)) :
    Ends P' (onPart part withPart x) Q' E' := by
  refine ⟨fun t ht => ?_⟩
  obtain ⟨P, Q, E, hP, hx, hQ, hE⟩ := h t ht
  have hxs := hx.run _ hP
  unfold Action.onPart
  rcases hr : x (part t) with ⟨e | a, s'⟩
  · rw [hr] at hxs
    exact hE s' hxs
  · rw [hr] at hxs
    exact hQ a s' hxs

end Ends

end Action

end PagedTable
