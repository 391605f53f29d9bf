import PagedTable.Proofs.Action.Respects

/-!
# Promises that are kept

`Action.Triple P x Q E` is partial correctness without a broken promise: from a state with `P` the
action `x` does not end as `Fault.misused`. If it comes to a value, `Q` holds of the value and the
state after it. If it is refused, or would never end, `E` holds of the state that it leaves.

`Action.Safe P x φ` is the case of an action that keeps `P` up throughout.

* `Triple.bind`, `Safe.seq`, `Safe.bind`, …: one lemma for each way of putting actions together.
-/

namespace PagedTable

namespace Action

variable {σ τ α β : Type} {P P' : σ → Prop} {Q Q' : α → σ → Prop} {R : β → σ → Prop}
  {E E' : σ → Prop} {φ ψ : α → Prop} {x y : Action σ α} {f : α → Action σ β}

/-- From a state with `P` the action breaks no promise. It leaves `Q` if it comes to a value, and
`E` if not. -/
structure Triple (P : σ → Prop) (x : Action σ α) (Q : α → σ → Prop) (E : σ → Prop) : Prop where
  run : ∀ s, P s → match x s with
    | (.ok a, s') => Q a s'
    | (.error e, s') => e ≠ .misused ∧ E s'

/-- From a state with `P` the action breaks no promise and leaves `P`, and `φ` holds of its
answer. -/
def Safe (P : σ → Prop) (x : Action σ α) (φ : α → Prop) : Prop :=
  Triple P x (fun a s => φ a ∧ P s) P

namespace Triple

theorem before (h : Triple P x Q E) (hP : ∀ s, P' s → P s) : Triple P' x Q E :=
  ⟨fun s hs => h.run s (hP s hs)⟩

theorem after (h : Triple P x Q E) (hQ : ∀ a s, Q a s → Q' a s) (hE : ∀ s, E s → E' s) :
    Triple P x Q' E' := by
  refine ⟨fun s hs => ?_⟩
  have hx := h.run s hs
  rcases hr : x s with ⟨e | a, s'⟩
  · rw [hr] at hx
    exact ⟨hx.1, hE s' hx.2⟩
  · rw [hr] at hx
    exact hQ a s' hx

theorem bind (hx : Triple P x Q E) (hf : ∀ a, Triple (Q a) (f a) R E) : Triple P (x >>= f) R E := by
  refine ⟨fun s hs => ?_⟩
  have hxs := hx.run s hs
  rcases hr : x s with ⟨e | a, s'⟩
  · rw [hr] at hxs
    rw [bind_error hr]
    exact hxs
  · rw [hr] at hxs
    rw [bind_ok hr]
    exact (hf a).run s' hxs

theorem pure {a : α} (h : ∀ s, P s → Q a s) : Triple P (pure a) Q E := ⟨h⟩

theorem refuse {e : DbError} (h : ∀ s, P s → E s) : Triple P (refuse e) Q E :=
  ⟨fun s hs => ⟨Fault.noConfusion, h s hs⟩⟩

theorem endless (h : ∀ s, P s → E s) : Triple P (fail .endless) Q E :=
  ⟨fun s hs => ⟨Fault.noConfusion, h s hs⟩⟩

theorem change {g : σ → σ} {Q : Unit → σ → Prop} (h : ∀ s, P s → Q () (g s)) :
    Triple P (change g) Q E := ⟨h⟩

/-- What does not depend on the state can be taken out of the precondition. -/
theorem lift {p : Prop} (h : p → Triple P x Q E) : Triple (fun s => p ∧ P s) x Q E :=
  ⟨fun s hs => (h hs.1).run s hs.2⟩

theorem ite {p : Prop} [Decidable p] (hx : p → Triple P x Q E) (hy : ¬ p → Triple P y Q E) :
    Triple P (if p then x else y) Q E := by
  split
  · exact hx (by assumption)
  · exact hy (by assumption)

/-- An action may look at the state. -/
theorem state {g : σ → Action σ β} (h : ∀ t, P t → Triple (fun s => s = t) (g t) R E) :
    Triple P (state >>= g) R E := ⟨fun s hs => (h s hs).run s rfl⟩

/-- An action on a part of the state. -/
theorem onPart {part : τ → σ} {withPart : τ → σ → τ} {P' : τ → Prop} {Q' : α → τ → Prop}
    {E' : τ → Prop} (h : ∀ t, P' t → ∃ P Q E, P (part t) ∧ Triple P x Q E ∧
      (∀ a s, Q a s → Q' a (withPart t s)) ∧ ∀ s, E s → E' (withPart t s)) :
    Triple P' (onPart part withPart x) Q' E' := by
  refine ⟨fun t ht => ?_⟩
  obtain ⟨P, Q, E, hP, hx, hQ, hE⟩ := h t ht
  have hxs := hx.run _ hP
  unfold Action.onPart
  rcases hr : x (part t) with ⟨e | a, s'⟩
  · rw [hr] at hxs
    exact ⟨hxs.1, hE s' hxs.2⟩
  · rw [hr] at hxs
    exact hQ a s' hxs

/-- The value, or the error, of an action that is refused. -/
theorem attempt (h : Triple P x Q E) : Triple P (attempt x)
    (fun r s => match r with
      | .ok a => Q a s
      | .error _ => E s) E := by
  refine ⟨fun s hs => ?_⟩
  have hxs := h.run s hs
  unfold Action.attempt
  rcases hr : x s with ⟨(e | _ | _) | a, s'⟩
  · rw [hr] at hxs
    exact hxs.2
  · rw [hr] at hxs
    exact absurd rfl hxs.1
  · rw [hr] at hxs
    exact ⟨Fault.noConfusion, hxs.2⟩
  · rw [hr] at hxs
    exact hxs

theorem ne_misused {s : σ} (h : Triple P x Q E) (hs : P s) : (x s).1 ≠ .error .misused := by
  have hxs := h.run s hs
  rcases hr : x s with ⟨e | a, s'⟩
  · rw [hr] at hxs
    exact fun he => hxs.1 (Except.error.inj he)
  · intro he
    cases he

end Triple

namespace Safe

/-- An action that keeps `P` up, and then another one. -/
theorem seq (hx : Safe P x φ) (hE : ∀ s, P s → E s) (hf : ∀ a, φ a → Triple P (f a) R E) :
    Triple P (x >>= f) R E :=
  Triple.bind (hx.after (fun _ _ h => h) hE) fun a => .lift (hf a)

theorem bind {ψ : β → Prop} (hx : Safe P x φ) (hf : ∀ a, φ a → Safe P (f a) ψ) :
    Safe P (x >>= f) ψ := hx.seq (fun _ h => h) hf

theorem weaken (hx : Safe P x φ) (h : ∀ a, φ a → ψ a) : Safe P x ψ :=
  hx.after (fun a _ ha => ⟨h a ha.1, ha.2⟩) fun _ h => h

theorem pure {a : α} (h : φ a) : Safe P (pure a) φ := Triple.pure fun _ hs => ⟨h, hs⟩

theorem refuse (e : DbError) : Safe P (refuse e) φ := Triple.refuse fun _ hs => hs

theorem endless : Safe P (fail .endless) φ := Triple.endless fun _ hs => hs

/-- A value that exists is there. -/
theorem need {o : Option α} (h : ∃ a, o = some a ∧ φ a) : Safe P (need o) φ := by
  obtain ⟨a, rfl, ha⟩ := h
  exact pure ha

theorem given {o : Option α} {a : α} (h : o = some a) : Safe P (Action.need o) fun b => b = a :=
  need ⟨a, h, rfl⟩

/-- A promise that holds is kept. -/
theorem require {p : Prop} [Decidable p] (h : p) : Safe P (require p) fun _ => True := by
  unfold Action.require
  rw [if_pos h]
  exact pure trivial

theorem ofExcept (r : Except DbError α) : Safe P (ofExcept r) fun a => r = .ok a := by
  cases r with
  | ok a => exact pure rfl
  | error e => exact refuse e

theorem ite {p : Prop} [Decidable p] (hx : p → Safe P x φ) (hy : ¬ p → Safe P y φ) :
    Safe P (if p then x else y) φ := Triple.ite hx hy

theorem state {g : σ → Action σ β} {ψ : β → Prop} (h : ∀ s, Safe P (g s) ψ) :
    Safe P (state >>= g) ψ := ⟨fun s hs => (h s).run s hs⟩

theorem forM {g : α → Action σ Unit} {as : List α} (h : ∀ a ∈ as, Safe P (g a) fun _ => True) :
    Safe P (as.forM g) fun _ => True := by
  induction as with
  | nil => exact pure trivial
  | cons a as ih =>
    obtain ⟨ha, has⟩ := List.forall_mem_cons.mp h
    exact bind ha fun _ _ => ih has

/-- An action that keeps `P` up keeps it up when its errors are caught. -/
theorem attempt (h : Safe P x φ) : Safe P (attempt x) fun _ => True :=
  (Triple.attempt h).after (fun r _ hr => ⟨trivial, match r, hr with
    | .ok _, hr => hr.2
    | .error _, hs => hs⟩) fun _ hs => hs

theorem keeps (h : Safe P x φ) : Keeps P x := by
  intro s hs
  have hxs := h.run s hs
  rcases hr : x s with ⟨e | a, s'⟩
  · rw [hr] at hxs
    exact hxs.2
  · rw [hr] at hxs
    exact hxs.2

end Safe

end Action

end PagedTable
