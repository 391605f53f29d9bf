import PagedTable.Action
import PagedTable.PageId

/-!
# Loops that follow pages

A walk makes rounds. Each visits a page, and then the walk is over or goes on from another place.
The walks of this library carry a number of rounds that they may make at most. What they would do
without one is said by `Loop.Rounds`.

* `Rounds.walk_eq`: a walk that may make as many rounds as it needs does not notice the bound.
* `Loop.Ends`: the walk is over by itself, and has passed no page twice.
* `Ends.of_ahead`: so it is if in each round the pages that may still lie ahead get fewer.
* `Loop.Passes`: the places and states that a walk comes by. `Passes.keeps`: what every round keeps.
-/

namespace PagedTable

open PagedTable.Action

/-- What is done after a round: nothing, or the rest of the walk. -/
def Action.proceed {σ ι α : Type} (next : ι → Action σ α) : α ⊕ ι → Action σ α
  | .inl a => pure a
  | .inr i => next i

/-- A walk, as the rounds that it makes. -/
structure Loop (σ ι α : Type) where
  /-- The walk from a place on, with the rounds that it may make at most. -/
  walk : Nat → ι → Action σ α
  /-- One round: it comes to an answer, or to the place from which the walk goes on. -/
  round : ι → Action σ (α ⊕ ι)
  /-- The page that a round visits. -/
  page : ι → σ → PageId
  walk_succ : ∀ n i, walk (n + 1) i = round i >>= proceed (walk n)

namespace Loop

variable {σ ι α : Type} {L : Loop σ ι α} {i j : ι} {s s' : σ} {a : α} {e : Fault}
  {ids : List PageId} {n : Nat} {r : Except Fault α × σ}

/-- What a walk comes to if its first round amounts to an action from another state. -/
theorem walk_of_round {x : Action σ (α ⊕ ι)} (h : L.round i s = x s') :
    L.walk (n + 1) i s = (x >>= proceed (L.walk n)) s' := by
  rw [L.walk_succ, bind_of_eq h]

theorem walk_of_done (h : L.round i s = (.ok (.inl a), s')) : L.walk (n + 1) i s = (.ok a, s') := by
  rw [L.walk_succ, bind_ok h]
  rfl

theorem walk_of_failed (h : L.round i s = (.error e, s')) :
    L.walk (n + 1) i s = (.error e, s') := by
  rw [L.walk_succ, bind_error h]

theorem walk_of_next (h : L.round i s = (.ok (.inr j), s')) :
    L.walk (n + 1) i s = L.walk n j s' := by
  rw [L.walk_succ, bind_ok h]
  rfl

/-- The rounds of the walk from a place and a state on, if nothing bounds them: the pages that they
visit, and what the last one comes to. -/
inductive Rounds (L : Loop σ ι α) : ι → σ → List PageId → Except Fault α × σ → Prop
  | done {i : ι} {s s' : σ} {a : α} (run : L.round i s = (.ok (.inl a), s')) :
    Rounds L i s [L.page i s] (.ok a, s')
  | failed {i : ι} {s s' : σ} {e : Fault} (run : L.round i s = (.error e, s')) :
    Rounds L i s [L.page i s] (.error e, s')
  | next {i j : ι} {s s' : σ} {ids : List PageId} {r : Except Fault α × σ}
    (run : L.round i s = (.ok (.inr j), s')) (rest : Rounds L j s' ids r) :
    Rounds L i s (L.page i s :: ids) r

/-- **A bound that is not met** does not matter. -/
theorem Rounds.walk_eq (h : L.Rounds i s ids r) (hn : ids.length ≤ n) :
    L.walk n i s = r := by
  induction h generalizing n with
  | done run =>
    obtain ⟨n, rfl⟩ := Nat.exists_eq_succ_of_ne_zero (Nat.ne_of_gt hn)
    exact walk_of_done run
  | failed run =>
    obtain ⟨n, rfl⟩ := Nat.exists_eq_succ_of_ne_zero (Nat.ne_of_gt hn)
    exact walk_of_failed run
  | next run _ ih =>
    obtain ⟨n, rfl⟩ := Nat.exists_eq_succ_of_ne_zero (Nat.ne_of_gt (Nat.lt_of_lt_of_le
      (Nat.succ_pos _) hn))
    rw [walk_of_next run]
    exact ih (Nat.le_of_succ_le_succ hn)

/-- Without a bound the walk is over after `n` rounds at most. They visit pages of the kind `visits`
alone, and none of them twice. If the walk is given a bound that allows for them, it comes to the
same, and that is not that it would never end. -/
def Ends (L : Loop σ ι α) (visits : PageId → Prop) (n : Nat) (i : ι) (s : σ) : Prop :=
  ∃ ids r, L.Rounds i s ids r ∧ ids.Nodup ∧ (∀ id ∈ ids, visits id) ∧ ids.length ≤ n ∧
    (∀ fuel, ids.length ≤ fuel → L.walk fuel i s = r) ∧ r.1 ≠ .error .endless

/-- The walk from a place and a state on comes by another place, in another state. -/
inductive Passes (L : Loop σ ι α) (i : ι) (s : σ) : ι → σ → Prop
  | here : Passes L i s i s
  | next {j k : ι} {s' s'' : σ} (before : Passes L i s j s')
    (run : L.round j s' = (.ok (.inr k), s'')) : Passes L i s k s''

/-- What every round keeps holds wherever the walk comes by. -/
theorem Passes.keeps {P : ι → σ → Prop} (h : L.Passes i s j s')
    (hstep : ∀ {j k s' s''}, P j s' → L.round j s' = (.ok (.inr k), s'') → P k s'') (hi : P i s) :
    P j s' := by
  induction h with
  | here => exact hi
  | next _ run ih => exact hstep ih run

/-- What a round comes to when the pages `ahead` may be visited after it: the walk is over, or at a
place from which fewer are ahead. -/
inductive Advances (L : Loop σ ι α) (At : List PageId → ι → σ → Prop) (ahead : List PageId) (i : ι)
    (s : σ) : Prop where
  | done {s' : σ} {a : α} (run : L.round i s = (.ok (.inl a), s'))
  | failed {s' : σ} {e : Fault} (run : L.round i s = (.error e, s')) (refused : e ≠ .endless)
  | next {j : ι} {s' : σ} {rest : List PageId} (run : L.round i s = (.ok (.inr j), s'))
    (at_next : At rest j s') (sublist : rest.Sublist ahead)

/-- A walk that in each round has fewer pages ahead is over by itself. -/
theorem exists_rounds {At : List PageId → ι → σ → Prop}
    (hstep : ∀ {pages i s}, At pages i s →
      ∃ ahead, pages = L.page i s :: ahead ∧ L.Advances At ahead i s)
    {pages : List PageId} (h : At pages i s) :
    ∃ ids r, L.Rounds i s ids r ∧ ids.Sublist pages ∧ r.1 ≠ .error .endless := by
  induction hlen : pages.length using Nat.strongRecOn generalizing pages i s with
  | ind n ih =>
    obtain ⟨ahead, rfl, hadvances⟩ := hstep h
    cases hadvances with
    | done run => exact ⟨_, _, .done run, List.singleton_sublist.mpr List.mem_cons_self, nofun⟩
    | failed run hrefused =>
      refine ⟨_, _, .failed run, List.singleton_sublist.mpr List.mem_cons_self, fun heq => ?_⟩
      exact hrefused (Except.error.inj heq)
    | @next j s' rest run hnext hsub =>
      have hfewer : rest.length < n := by
        rw [← hlen]
        exact Nat.lt_succ_of_le hsub.length_le
      obtain ⟨ids, r, hrounds, hids, hends⟩ := ih _ hfewer hnext rfl
      exact ⟨_, r, .next run hrounds, (hids.trans hsub).cons_cons _, hends⟩

/-- **A walk ends** if in each round the pages that may still lie ahead get fewer. -/
theorem Ends.of_ahead {At : List PageId → ι → σ → Prop} {visits : PageId → Prop}
    (hstep : ∀ {pages i s}, At pages i s →
      ∃ ahead, pages = L.page i s :: ahead ∧ L.Advances At ahead i s)
    {pages : List PageId} (h : At pages i s) (hnd : pages.Nodup) (hvisits : ∀ id ∈ pages, visits id)
    (hlen : pages.length ≤ n) : L.Ends visits n i s := by
  obtain ⟨ids, r, hrounds, hsub, hends⟩ := exists_rounds hstep h
  exact ⟨ids, r, hrounds, hnd.sublist hsub, fun id hid => hvisits id (hsub.subset hid),
    Nat.le_trans hsub.length_le hlen, fun _ => hrounds.walk_eq, hends⟩

end Loop

end PagedTable
