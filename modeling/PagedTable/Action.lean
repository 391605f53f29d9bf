import PagedTable.Error

/-!
# Actions that change a state and may fail

An action leaves a state behind also when it fails: pages that were fetched stay fetched, and
pages that were written stay written. Three kinds of failure are kept apart (`Fault`).

* `Action.bind_ok`, `Action.bind_error`: an action that follows another one runs from the state
  that one left, and only if it came to a value.
-/

namespace PagedTable

/-- How an operation ends when it comes to no value. -/
inductive Fault where
  /-- The operation is refused. -/
  | refused (error : DbError)
  /-- The caller broke a promise that the operation relies on. The program would stop here. -/
  | misused
  /-- The links between pages form a cycle that the operation would follow for ever. -/
  | endless
deriving DecidableEq, Repr

/-- An operation on a state `σ`: a value or a fault, and the state it leaves. -/
def Action (σ α : Type) : Type := σ → Except Fault α × σ

namespace Action

variable {σ τ α β : Type}

protected def pure (a : α) : Action σ α := fun s => (.ok a, s)

protected def bind (x : Action σ α) (f : α → Action σ β) : Action σ β := fun s =>
  match x s with
  | (.ok a, s) => f a s
  | (.error e, s) => (.error e, s)

instance : Monad (Action σ) where
  pure := Action.pure
  bind := Action.bind

/-- Ends with a fault. -/
def fail (e : Fault) : Action σ α := fun s => (.error e, s)

/-- Ends because the database refuses the operation. -/
def refuse (e : DbError) : Action σ α := fail (.refused e)

/-- The state. -/
def state : Action σ σ := fun s => (.ok s, s)

/-- Replaces the state. -/
def replace (s : σ) : Action σ Unit := fun _ => (.ok (), s)

/-- Changes the state. -/
def change (f : σ → σ) : Action σ Unit := fun s => (.ok (), f s)

/-- A promise that the caller keeps. -/
def require (p : Prop) [Decidable p] : Action σ Unit :=
  if p then pure () else fail .misused

/-- A value that exists if the caller keeps its promise. -/
def need : Option α → Action σ α
  | some a => pure a
  | none => fail .misused

/-- The value, or the error, of a computation without a state. -/
def ofExcept : Except DbError α → Action σ α
  | .ok a => pure a
  | .error e => refuse e

/-- The value, or the error with which the database refuses. Other faults stay faults. -/
def attempt (x : Action σ α) : Action σ (Except DbError α) := fun s =>
  match x s with
  | (.ok a, s) => (.ok (.ok a), s)
  | (.error (.refused e), s) => (.ok (.error e), s)
  | (.error f, s) => (.error f, s)

/-- An action on a part of the state. -/
def onPart (part : τ → σ) (withPart : τ → σ → τ) (x : Action σ α) : Action τ α := fun t =>
  match x (part t) with
  | (r, s) => (r, withPart t s)

@[simp] theorem pure_apply (a : α) (s : σ) : (pure a : Action σ α) s = (.ok a, s) := rfl

@[simp] theorem fail_apply (e : Fault) (s : σ) : (fail e : Action σ α) s = (.error e, s) := rfl

@[simp] theorem refuse_apply (e : DbError) (s : σ) :
    (refuse e : Action σ α) s = (.error (.refused e), s) := rfl

@[simp] theorem state_apply (s : σ) : (state : Action σ σ) s = (.ok s, s) := rfl

@[simp] theorem replace_apply (s t : σ) : replace s t = (.ok (), s) := rfl

@[simp] theorem change_apply (f : σ → σ) (s : σ) : change f s = (.ok (), f s) := rfl

@[simp] theorem need_some_apply (a : α) (s : σ) : need (some a) s = (.ok a, s) := rfl

@[simp] theorem need_none_apply (s : σ) : (need none : Action σ α) s = (.error .misused, s) := rfl

@[simp] theorem ofExcept_ok_apply (a : α) (s : σ) : ofExcept (.ok a) s = (.ok a, s) := rfl

@[simp] theorem ofExcept_error_apply (e : DbError) (s : σ) :
    (ofExcept (.error e) : Action σ α) s = (.error (.refused e), s) := rfl

theorem require_apply_of {p : Prop} [Decidable p] (h : p) (s : σ) :
    require p s = (.ok (), s) := by simp [require, h]

theorem bind_apply (x : Action σ α) (f : α → Action σ β) (s : σ) :
    (x >>= f) s = match x s with
      | (.ok a, s) => f a s
      | (.error e, s) => (.error e, s) := rfl

theorem bind_ok {x : Action σ α} {f : α → Action σ β} {s s' : σ} {a : α}
    (h : x s = (.ok a, s')) : (x >>= f) s = f a s' := by rw [bind_apply, h]

/-- What comes next depends only on what came before. -/
theorem bind_of_eq {x y : Action σ α} {f : α → Action σ β} {s s' : σ} (h : x s = y s') :
    (x >>= f) s = (y >>= f) s' := by rw [bind_apply, h, bind_apply]

/-- An action that came to a value did so step by step. -/
theorem bind_eq_ok {x : Action σ α} {f : α → Action σ β} {s s'' : σ} {b : β}
    (h : (x >>= f) s = (.ok b, s'')) :
    ∃ a s', x s = (.ok a, s') ∧ f a s' = (.ok b, s'') := by
  rw [bind_apply] at h
  split at h
  · exact ⟨_, _, by assumption, h⟩
  · cases h

theorem bind_error {x : Action σ α} {f : α → Action σ β} {s s' : σ} {e : Fault}
    (h : x s = (.error e, s')) : (x >>= f) s = (.error e, s') := by rw [bind_apply, h]

theorem attempt_ok {x : Action σ α} {s s' : σ} {a : α} (h : x s = (.ok a, s')) :
    attempt x s = (.ok (.ok a), s') := by rw [attempt, h]

theorem attempt_refused {x : Action σ α} {s s' : σ} {e : DbError}
    (h : x s = (.error (.refused e), s')) : attempt x s = (.ok (.error e), s') := by
  rw [attempt, h]

/-- An error that is caught is no fault. -/
theorem attempt_ne_refused {x : Action σ α} {s s' : σ} {g : Fault}
    (h : attempt x s = (.error g, s')) (e : DbError) : g ≠ .refused e := by
  rintro rfl
  unfold attempt at h
  split at h <;> simp_all

instance : LawfulMonad (Action σ) := LawfulMonad.mk' (Action σ)
  (fun x => by
    funext s
    show Action.bind x (fun a => Action.pure (id a)) s = x s
    simp only [Action.bind, Action.pure, id]
    rcases x s with ⟨_ | _, _⟩ <;> rfl)
  (fun _ _ => rfl)
  (fun x f g => by
    funext s
    simp only [bind_apply]
    rcases x s with ⟨_ | _, _⟩ <;> rfl)

end Action

end PagedTable
