import PagedTable.Action

/-!
# What an action cannot tell apart

`Action.Respects R x`: from states that the relation `R` relates the action `x` answers the same, a
value or a fault, and it leaves states that `R` relates. A run of `x` can then be replaced by a run
from the other state.

* `Respects.bind`, `Respects.forM`, …: one lemma for each way of putting actions together.
* `Respects.keeps`: a property of one state is a relation too, so what accesses keep up, whole
  actions keep up (`Action.Keeps`).
-/

namespace PagedTable

namespace Action

variable {σ τ α β : Type} {R : σ → σ → Prop} {P : σ → Prop} {x y : Action σ α}

/-- From states that `R` relates the action answers the same, and leaves states that `R` relates. -/
def Respects (R : σ → σ → Prop) (x : Action σ α) : Prop :=
  ∀ s s', R s s' → (x s).1 = (x s').1 ∧ R (x s).2 (x s').2

/-- Whether it comes to a value or not, the action keeps `P` up. -/
def Keeps (P : σ → Prop) (x : Action σ α) : Prop := ∀ s, P s → P (x s).2

/-- A state with the property `P`, and the same state. -/
def Same (P : σ → Prop) (s s' : σ) : Prop := P s ∧ s' = s

theorem respects_same : Respects (Same P) x ↔ Keeps P x := by
  constructor
  · exact fun h s hs => (h s s ⟨hs, rfl⟩).2.1
  · rintro h s s' ⟨hs, rfl⟩
    exact ⟨rfl, h s' hs, rfl⟩

namespace Respects

theorem keeps (h : Respects (Same P) x) : Keeps P x := respects_same.mp h

theorem pure (a : α) : Respects R (pure a : Action σ α) := fun _ _ h => ⟨rfl, h⟩

theorem fail (e : Fault) : Respects R (fail e : Action σ α) := fun _ _ h => ⟨rfl, h⟩

theorem change {f : σ → σ} (hf : ∀ s s', R s s' → R (f s) (f s')) : Respects R (change f) :=
  fun s s' h => ⟨rfl, hf s s' h⟩

theorem bind {f : α → Action σ β} (hx : Respects R x) (hf : ∀ a, Respects R (f a)) :
    Respects R (x >>= f) := by
  intro s s' h
  obtain ⟨heq, hs⟩ := hx s s' h
  rw [bind_apply, bind_apply]
  rcases hr : x s with ⟨r, t⟩
  rcases hr' : x s' with ⟨r', t'⟩
  rw [hr, hr'] at heq hs
  subst heq
  cases r with
  | ok a => exact hf a t t' hs
  | error e => exact ⟨rfl, hs⟩

/-- An action may look at the part of the state that `R` leaves the same. -/
theorem state {f : σ → Action σ β} (hsame : ∀ s s', R s s' → f s = f s')
    (hf : ∀ s, Respects R (f s)) : Respects R (state >>= f) := by
  intro s s' h
  rw [bind_ok (state_apply s), bind_ok (state_apply s'), ← hsame s s' h]
  exact hf s s s' h

theorem need (a : Option α) : Respects R (need a : Action σ α) := by
  cases a with
  | none => exact fail _
  | some a => exact pure a

theorem require (p : Prop) [Decidable p] : Respects R (require p : Action σ Unit) := by
  unfold Action.require
  split
  · exact pure _
  · exact fail _

theorem ofExcept (a : Except DbError α) : Respects R (ofExcept a : Action σ α) := by
  cases a with
  | error e => exact fail _
  | ok a => exact pure a

theorem ite {p : Prop} [Decidable p] (hx : Respects R x) (hy : Respects R y) :
    Respects R (if p then x else y) := by
  split
  · exact hx
  · exact hy

theorem attempt (hx : Respects R x) : Respects R (attempt x) := by
  intro s s' h
  obtain ⟨heq, hs⟩ := hx s s' h
  unfold Action.attempt
  rcases hr : x s with ⟨r, t⟩
  rcases hr' : x s' with ⟨r', t'⟩
  rw [hr, hr'] at heq hs
  subst heq
  rcases r with (e | _ | _) | a <;> exact ⟨rfl, hs⟩

theorem forM {f : α → Action σ Unit} {as : List α} (h : ∀ a ∈ as, Respects R (f a)) :
    Respects R (as.forM f) := by
  induction as with
  | nil => exact pure _
  | cons a as ih =>
    obtain ⟨ha, has⟩ := List.forall_mem_cons.mp h
    exact bind ha fun _ => ih has

/-- An action on a part of the state, where `S` relates states whose parts `R` relates. -/
theorem onPart {S : τ → τ → Prop} {part : τ → σ} {withPart : τ → σ → τ} (hx : Respects R x)
    (hpart : ∀ t t', S t t' → R (part t) (part t'))
    (hwith : ∀ t t' s s', S t t' → R s s' → S (withPart t s) (withPart t' s')) :
    Respects S (onPart part withPart x) := by
  intro t t' h
  obtain ⟨heq, hs⟩ := hx _ _ (hpart t t' h)
  exact ⟨heq, hwith t t' _ _ h hs⟩

end Respects

end Action

end PagedTable
