import PagedTable.Proofs.Cursor.Peeks
import PagedTable.Proofs.Table.Refusal
import PagedTable.Proofs.Table.Call

/-!
# Queries

Asking a table for something does not disturb it, not even if its file is corrupt and the links in
it lead anywhere. A page that a link names and that is no page of the file is made by the attempt to
load it, but then it is no node and the query ends.

* `Query`: the operations that only read, of a table and of a cursor anywhere in it.
* `query_undisturbing`: what a query leaves as it was.
-/

namespace PagedTable

open PagedTable.Action Pager

namespace Table

/-- The call writes nothing, neither to the pages nor to the file. -/
def Call.Reads : Call → Prop
  | .op (.insert _ _) | .op .flush | .insertRow _ => False
  | _ => True

/-- An operation that only reads. -/
inductive Query where
  | call (call : Call) (reads : call.Reads)
  /-- A new cursor. -/
  | start
  /-- The entry under a cursor. -/
  | value (cursor : Cursor)
  /-- A cursor moves on. -/
  | advance (cursor : Cursor)

namespace Query

/-- What a query answers when it succeeds. -/
def Reply : Query → Type
  | call c _ => c.Reply
  | start => Cursor
  | value _ => Key × Payload
  | advance _ => Cursor

/-- Carries out a query. -/
def run : (q : Query) → Action Table q.Reply
  | call c _ => c.run
  | start => onTree Cursor.start
  | value cursor => onTree fun _ => walking.onCursor cursor Walk.value
  | advance cursor => onTree fun _ => walking.onCursor cursor do
    Walk.advance
    return (← Action.state).cursor

end Query

/-! ## Looking at a table -/

variable {α : Type} {P E : Pager → Prop} {Q : α → Pager → Prop} {s : Pager} {T : Tree}

/-- The table has the tree `T`, and `P` holds of its pages. -/
def Has (T : Tree) (P : Pager → Prop) (t : Table) : Prop := t.tree = T ∧ P t.pager

theorem onTree_ends {x : Tree → Action Pager α} (h : Ends P (x T) Q E) :
    Ends (Has T P) (onTree x) (fun a => Has T (Q a)) (Has T E) := by
  have hpart : Ends (Has T P) (onPart Table.pager (fun t pager => { t with pager }) (x T))
      (fun a => Has T (Q a)) (Has T E) :=
    .onPart fun _ ht => ⟨_, _, _, ht.2, h, fun _ _ ha => ⟨ht.1, ha⟩, fun _ he => ⟨ht.1, he⟩⟩
  refine ⟨fun t ht => ?_⟩
  unfold onTree
  rw [ht.1]
  exact hpart.run t ht

theorem onCursor_ends {x : Action Walk α}
    (h : Ends (fun w => P w.pager) x (fun a w => Q a w.pager) fun w => E w.pager) (c : Cursor) :
    Ends P (walking.onCursor c x) Q E := by
  refine ⟨fun s hs => ?_⟩
  have hx := h.run ⟨c, s⟩ hs
  unfold walking.onCursor
  rcases hr : x ⟨c, s⟩ with ⟨e | a, w⟩
  · rw [hr] at hx
    exact hx
  · rw [hr] at hx
    exact hx

theorem walking_ends {x : Tree → Action Walk α}
    (h : Ends (fun w => s.Seen w.pager) (x T) (fun a w => Q a w.pager) fun w => s.Peeked w.pager) :
    Ends (Has T s.Seen) (walking x) (fun a => Has T (Q a)) (Has T s.Peeked) :=
  onTree_ends (.bind (Cursor.start_peeks s T) (onCursor_ends h))

/-- A query of a table peeks. -/
abbrev Reading (s : Pager) (T : Tree) (x : Action Table α) : Prop :=
  Ends (Has T s.Seen) x (fun _ => Has T s.Seen) (Has T s.Peeked)

theorem get_peeks (s : Pager) (T : Tree) (key : Key) : Reading s T (get key) := by
  refine onTree_ends (.bind (Tree.get_peeks s T key) fun found => ?_)
  cases found with
  | none => exact .pure fun _ h => h
  | some value => exact .bind (.ofExcept fun _ h => h.peeked) fun _ => .pure fun _ h => h

/-- All rows are answered, or the first error is. -/
theorem select_peeks (s : Pager) (T : Tree) : Reading s T select := by
  have hrows : Ends (Has T s.Seen) leadingRows (fun r => Has T (Walk.Listed s r))
      (Has T s.Peeked) := walking_ends (Walk.rowsFrom_ends s scanLength)
  refine .bind hrows fun ⟨_, flaw⟩ => ?_
  cases flaw with
  | none => exact .pure fun _ h => h
  | some e => exact .fail fun _ h => h

theorem Call.peeks (s : Pager) (T : Tree) (call : Call) (h : call.Reads) :
    Reading s T call.run := by
  cases call with
  | op o =>
    cases o with
    | insert _ _ => exact h.elim
    | flush => exact h.elim
    | get key => exact onTree_ends (x := (·.get key)) (Tree.get_peeks s T key)
    | getRow key => exact get_peeks s T key
    | search key => exact onTree_ends (x := (·.search key)) (Tree.search_peeks s T key)
    | scan =>
      exact walking_ends (x := fun _ => Walk.entriesFrom scanLength) (Q := fun _ => s.Seen)
        (Walk.entriesFrom_peeks s _)
    | validate => exact onTree_ends (Tree.validate_peeks s T)
    | dump => exact onTree_ends (Tree.dump_peeks s T)
  | insertRow _ => exact h.elim
  | greatest id => exact onTree_ends (x := fun _ => Tree.greatest id) (Tree.greatest_peeks s id)
  | select => exact select_peeks s T

/-- **Every query peeks.** -/
theorem Query.peeks (s : Pager) (T : Tree) (q : Query) : Reading s T q.run := by
  cases q with
  | call c h => exact c.peeks s T h
  | start => exact onTree_ends (Cursor.start_peeks s T)
  | value c =>
    exact onTree_ends (x := fun _ => walking.onCursor c Walk.value)
      (onCursor_ends (Walk.value_peeks s) c)
  | advance c =>
    have hx : Walk.Reading s (do Walk.advance; return (← Action.state).cursor) :=
      .bind (Walk.advance_peeks s) fun _ => Walk.look_peeks fun _ => .pure _
    exact onTree_ends (x := fun _ => walking.onCursor c _) (onCursor_ends hx c)

/-- **A query does not disturb the table**, whatever its file holds and wherever the cursor is. What
was cached is cached with the same bytes and is dirty if it was, and the file is the same. If the
query is answered, as many pages are in use as before, and no page is cached that was not read from
a file that someone else has written to. The rest is said where nobody else writes to the file, and
it had less than `2 ^ 44` bytes when it was opened (`Undisturbed`): a query that is answered leaves
the table exactly as it was, and one that is not has brought in one page at most, of zero bytes. -/
theorem query_undisturbing (t t' : Table) (q : Query) (r : Except Fault q.Reply)
    (hs : t.pager.Reachable) (hrun : q.run t = (r, t')) :
    t'.tree = t.tree ∧ t'.file = t.file ∧
      (∀ id f, t.pager.frame? id = some f → t'.pager.frame? id = some f) ∧
      (∀ a, r = .ok a → t.pager.Loaded t'.pager) ∧
      (t.pager.Undisturbed →
        (∀ a, r = .ok a → t' = t) ∧
        ∀ e, r = .error e → t' = t ∨ ∃ id dirty, t.pager.frame? id = none ∧
          ∀ j, t'.pager.frame? j =
            if j = id then some { page := Page.zero, dirty } else t.pager.frame? j) := by
  have h := (q.peeks t.pager t.tree).run t ⟨rfl, .refl t.pager⟩
  rw [hrun] at h
  obtain ⟨tree', s'⟩ := t'
  cases r with
  | ok a =>
    obtain ⟨rfl, hseen⟩ := h
    refine ⟨rfl, hseen.bytes, fun _ _ => hseen.cached, fun _ _ => hseen.loaded hs.sound,
      fun hu => ⟨fun _ _ => ?_, ?_⟩⟩
    · exact congrArg (Table.mk t.tree) (hu.faithful.seen hseen)
    · rintro _ ⟨⟩
  | error e =>
    obtain ⟨rfl, hpeeked⟩ := h
    refine ⟨rfl, hpeeked.bytes, fun _ _ => hpeeked.cached, ?_, fun hu => ⟨?_, fun _ _ => ?_⟩⟩
    · rintro _ ⟨⟩
    · rintro _ ⟨⟩
    · rcases hu.faithful.peeked hpeeked with heq | hadded
      · exact .inl (congrArg (Table.mk t.tree) heq)
      · exact .inr hadded

/-- An empty table is scanned, and then asked for the greatest key below a page that it does not
have. -/
theorem query_undisturbing_empty :
    ∃ t e t', ofFile defaultPath #[] .full = .ok t ∧
      (Query.call (.op .scan) trivial).run t = (.ok [], t) ∧
      (Query.call (.greatest ⟨7⟩) trivial).run t = (.error (.refused e), t') ∧
      ∃ id dirty, t.pager.frame? id = none ∧ ∀ j, t'.pager.frame? j =
        if j = id then some { page := Page.zero, dirty } else t.pager.frame? j := by
  obtain ⟨t, hopen, hcount, -, hscan⟩ := ofFile_empty defaultPath .full
  have hu := ofFile_undisturbed (by decide) hopen
  have hrun : (Query.call (.op .scan) trivial).run t = (.ok [], (scan t).2) := Prod.ext hscan rfl
  obtain ⟨-, -, -, -, hkept⟩ := query_undisturbing t _ _ _ hu.reachable hrun
  -- Page 7 is not in use, so it is neither cached nor a node.
  have hunused : ¬ (⟨7⟩ : PageId).index < t.pager.count := by
    rw [show t.pager.count = 1 from hcount]
    decide
  have hnone : t.pager.view.node? ⟨7⟩ = none := by
    by_contra hsome
    obtain ⟨⟨kind, p⟩, hn⟩ := Option.ne_none_iff_exists'.mp hsome
    exact hunused (hu.faithful.sound.index_lt_count hn)
  obtain ⟨e, he⟩ := node_fails hnone
  have hgreatest : (Query.call (.greatest ⟨7⟩) trivial).run t =
      (.error (.refused e), { t with pager := t.pager.fetched ⟨7⟩ }) :=
    onTree_run (x := fun _ => Tree.greatest ⟨7⟩) (bind_error he)
  obtain ⟨-, -, -, -, hadded⟩ := query_undisturbing t _ _ _ hu.reachable hgreatest
  refine ⟨t, e, _, hopen, ?_, hgreatest, ?_⟩
  · rw [hrun, (hkept hu).1 [] rfl]
  rcases (hadded hu).2 _ rfl with hsame | hnew
  · obtain ⟨d, hv⟩ := hu.faithful.view_eq (show (⟨7⟩ : PageId).index < maxPages by decide)
    have hcached := (frame?_fetched hv ⟨7⟩).trans (if_pos rfl)
    rw [show t.pager.fetched ⟨7⟩ = t.pager from congrArg Table.pager hsame] at hcached
    exact absurd (hu.faithful.sound.cached_lt hcached) hunused
  · exact hnew

end Table

end PagedTable
