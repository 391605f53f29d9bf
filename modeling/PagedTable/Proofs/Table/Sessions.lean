import PagedTable.Proofs.Pager.Alike
import PagedTable.Proofs.Table.Respects

/-!
# Closing and reopening

A session opens the file, makes its calls and closes the table, which writes everything back. The
next session starts from the file that is left. Whether the calls are made in one session or in many
makes no difference: neither to the answers, nor to the page counts, nor to the bytes of the file.

* `session`, `sessions`: one session, and one after the other.
* `flush_reopened`, `reopened`: a table that is closed and opened again shows what it showed before.
* `sessions_from`: sessions that go on from a table that has been closed.
* `sessions_eq_session`: all sessions from an empty file.
-/

namespace PagedTable

namespace Table

open Pager

variable {t t' : Table} {config : Config}

/-- Writes everything back and gives up the table: the file that it leaves. -/
def close (t : Table) : Except Fault (Array UInt8) :=
  match flush t with
  | (.ok (), t) => .ok t.file
  | (.error e, _) => .error e

/-- A session on a file of these bytes: what came of the calls, and the file that is left. -/
def session (path : String) (config : Config) (calls : List Call) (bytes : Array UInt8) :
    Except Fault (List Record × Array UInt8) := do
  let t ← ofFile path bytes config
  let (records, t) := perform calls t
  return (records, ← close t)

/-- One session after the other, each on the file that the one before it leaves. -/
def sessions (path : String) (config : Config) :
    List (List Call) → Array UInt8 → Except Fault (List Record × Array UInt8)
  | [], bytes => return ([], bytes)
  | calls :: rest, bytes => do
    let (records, bytes) ← session path config calls bytes
    let (more, bytes) ← sessions path config rest bytes
    return (records ++ more, bytes)

/-- The tables have the tree of a table with this configuration, and their pagers show the same. -/
abbrev SameShown (config : Config) : Table → Table → Prop := Along ⟨rootPage, config⟩ Alike

theorem close_run {s : Pager} (h : Pager.flush t.pager = (.ok (), s)) :
    close t = .ok s.disk.bytes := by
  rw [close, flush, onTree_run (x := fun _ => Pager.flush) h]
  rfl

/-- Tables that show the same leave the same file. -/
theorem close_eq (h : SameShown config t t') :
    ∃ bytes, close t = .ok bytes ∧ close t' = .ok bytes := by
  obtain ⟨u, u', hrun, hrun', -, hfile⟩ := flush_alike h.pager
  exact ⟨u.disk.bytes, close_run hrun, by rw [close_run hrun', hfile]⟩

/-- A file that a table was written back to can be opened with every configuration, and the new
table shows what the old one showed. -/
theorem flush_reopened (path : String) (config : Config) (h : t.pager.Intact) :
    ∃ s u, Pager.flush t.pager = (.ok (), s) ∧ ofFile path s.disk.bytes config = .ok u ∧
      u.tree = ⟨rootPage, config⟩ ∧ Alike t.pager u.pager := by
  obtain ⟨s, hrun, -, hsize, hfile⟩ := h.flush_run
  obtain ⟨u, hopen, htree, hfaithful, hd, hpos, hsame⟩ :=
    ofFile_whole path config hsize h.faithful.sound.count_le
  obtain ⟨hcount, hshown⟩ := hsame h.used
  refine ⟨s, u, hrun, hopen, htree, h, ⟨hpos, hfaithful, hd⟩, hcount.symm, ?_⟩
  funext id
  rw [hshown, hfile]

/-- So is the file of a table that is written back. -/
theorem file_reopened (path : String) (config : Config) (h : t.pager.Intact) :
    ∃ u, ofFile path (flush t).2.file config = .ok u ∧ u.tree = ⟨rootPage, config⟩ ∧
      Alike t.pager u.pager := by
  obtain ⟨s, u, hrun, hopen, htree, halike⟩ := flush_reopened path config h
  have hfile : (flush t).2.file = s.disk.bytes :=
    congrArg (fun r => r.2.file) (onTree_run (x := fun _ => Pager.flush) hrun)
  exact ⟨u, hfile ▸ hopen, htree, halike⟩

/-- **A table that is closed and opened again** shows what it showed before. -/
theorem reopened (path : String) (h : SameShown config t t) :
    ∃ bytes t', close t = .ok bytes ∧ ofFile path bytes config = .ok t' ∧
      SameShown config t t' := by
  obtain ⟨s, t', hrun, hopen, htree, halike⟩ := flush_reopened path config h.pager.left
  exact ⟨s.disk.bytes, t', close_run hrun, hopen, h.left, htree, halike⟩

theorem session_run {path : String} {calls : List Call} {bytes last : Array UInt8}
    (hopen : ofFile path bytes config = .ok t) (hclose : close (perform calls t).2 = .ok last) :
    session path config calls bytes = .ok ((perform calls t).1, last) := by
  simp only [session, hopen, bind, Except.bind, hclose]
  rfl

theorem sessions_cons {path : String} {calls : List Call} {rest : List (List Call)}
    {bytes bytes' last : Array UInt8} {records more : List Record}
    (hfirst : session path config calls bytes = .ok (records, bytes'))
    (hrest : sessions path config rest bytes' = .ok (more, last)) :
    sessions path config (calls :: rest) bytes = .ok (records ++ more, last) := by
  simp only [sessions, hfirst, bind, Except.bind, hrest]
  rfl

/-- **Sessions that go on.** Of two tables that show the same, one makes all calls. The other one is
closed, and sessions make the calls. -/
theorem sessions_from (path : String) (rest : List (List Call)) (h : SameShown config t t') :
    ∃ bytes last, close t' = .ok bytes ∧ close (perform rest.flatten t).2 = .ok last ∧
      sessions path config rest bytes = .ok ((perform rest.flatten t).1, last) := by
  induction rest generalizing t t' with
  | nil =>
    obtain ⟨bytes, hclose, hclose'⟩ := close_eq h
    exact ⟨bytes, bytes, hclose', hclose, rfl⟩
  | cons calls rest ih =>
    -- The other table is closed here, and the next session opens it again as `u`.
    obtain ⟨bytes, u, hclose, hopen, hu⟩ := reopened path
      ⟨h.right, h.right, .refl h.pager.right⟩
    have htu : SameShown config t u := ⟨h.left, hu.right, h.pager.trans hu.pager⟩
    obtain ⟨hrecords, hafter⟩ := perform_respects alike_accesses flush_respects calls htu
    obtain ⟨bytes', last, hclose', hlast, hrest⟩ := ih hafter
    refine ⟨bytes, last, hclose, ?_, ?_⟩
    · rwa [List.flatten_cons, perform_append]
    · rw [List.flatten_cons, perform_append, hrecords]
      exact sessions_cons (session_run hopen hclose') hrest

/-- **Closing and reopening makes no difference.** From an empty file, calls that are made in one
session answer as they do when sessions make them one after the other, wherever one ends and the
next begins. Each call has the same answer and the same page counts before and after it, and the
file that is left has the same bytes. -/
theorem sessions_eq_session (path : String) (config : Config) (first : List Call)
    (rest : List (List Call)) :
    ∃ records bytes, session path config (first ++ rest.flatten) #[] = .ok (records, bytes) ∧
      sessions path config (first :: rest) #[] = .ok (records, bytes) := by
  have hnew : (#[] : Array UInt8).size = 0 * pageSize := (Nat.zero_mul _).symm
  obtain ⟨t, hopen, htree, hfaithful, hd, hpos, -⟩ :=
    ofFile_whole path config hnew (Nat.zero_le _)
  have ht : SameShown config t t := ⟨htree, htree, .refl ⟨hpos, hfaithful, hd⟩⟩
  obtain ⟨-, hafter⟩ := perform_respects alike_accesses flush_respects first ht
  obtain ⟨bytes, last, hclose, hlast, hrest⟩ := sessions_from path rest hafter
  refine ⟨_, last, session_run hopen ?_, ?_⟩
  · rwa [perform_append]
  · rw [perform_append]
    exact sessions_cons (session_run hopen hclose) hrest

end Table

end PagedTable
