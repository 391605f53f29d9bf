import PagedTable.Proofs.Table.Sessions

/-!
# What a file keeps

Tables are opened on a file one after the other, each with a configuration of its own. A table may
be dropped without being closed, and then its changes since it was last written back are lost.

* `FileState`, `Event`, `FileState.run`: a file, what happens to it, and what is left of it.
* `FileState.bytes_step`, `FileState.bytes_run`: only `flush` and closing write to the file.
* `FileState.lastSaved`: the table that the file holds.
* `open_sees_lastSaved`: opening a table shows what was last written back, and nothing else.
-/

namespace PagedTable

namespace Table

open PagedTable.Action Pager

/-- Something that happens to a file. -/
inductive Event where
  | opens (config : Config)
  | call (call : Call)
  /-- The table is written back and given up. -/
  | closes
  /-- The table is given up as it is. -/
  | drops

/-- Only these events are to write to the file. -/
def Event.saves : Event → Bool
  | call (.op .flush) => true
  | closes => true
  | _ => false

/-- A file, and the table that is open on it, if there is one. -/
inductive FileState where
  | closed (bytes : Array UInt8)
  | opened (t : Table)

namespace FileState

/-- The content of the file. -/
def bytes : FileState → Array UInt8
  | closed bytes => bytes
  | opened t => t.file

/-- The table that is open. -/
def table? : FileState → Option Table
  | closed _ => none
  | opened t => some t

/-- What an event leaves. A table that is still open when another one is opened is dropped before.
Without an open table there is nothing to call, to close or to drop. -/
def step (path : String) (st : FileState) : Event → FileState
  | .opens config =>
    match ofFile path st.bytes config with
    | .ok t => opened t
    | .error _ => closed st.bytes
  | .call call =>
    match st with
    | closed bytes => closed bytes
    | opened t => opened (call.run t).2
  | .closes =>
    match st with
    | closed bytes => closed bytes
    | opened t => closed (flush t).2.file
  | .drops => closed st.bytes

/-- What is left when everything has happened. -/
def run (path : String) (st : FileState) (events : List Event) : FileState :=
  events.foldl (step path) st

/-- The table that was written back last, as it was then. -/
def lastSaved (path : String) : FileState → List Event → Option Table
  | _, [] => none
  | st, e :: events =>
    match lastSaved path (st.step path e) events with
    | some t => some t
    | none => if e.saves then st.table? else none

variable {path : String} {st : FileState} {e : Event} {t : Table}

theorem run_cons (path : String) (st : FileState) (e : Event) (events : List Event) :
    run path st (e :: events) = run path (st.step path e) events := rfl

/-- Calls alone. -/
theorem run_calls (path : String) (t : Table) (calls : List Call) :
    run path (.opened t) (calls.map .call) = .opened (perform calls t).2 := by
  induction calls generalizing t with
  | nil => rfl
  | cons call calls ih => exact ih (call.run t).2

/-- A table is opened, called and closed. -/
theorem run_session {bytes : Array UInt8} {config : Config}
    (hopen : ofFile path bytes config = .ok t) (calls : List Call) :
    run path (.closed bytes) (.opens config :: calls.map .call ++ [.closes]) =
      .closed (flush (perform calls t).2).2.file := by
  have hopened : step path (.closed bytes) (.opens config) = .opened t := by
    rw [step, FileState.bytes, hopen]
  rw [List.cons_append, run_cons, hopened, run, List.foldl_append]
  exact congrArg (step path · .closes) (run_calls path t calls)

/-! ## Which events write -/

/-- Opening a table leaves the file as it is. -/
theorem file_of_ofFile {bytes : Array UInt8} {config : Config}
    (h : ofFile path bytes config = .ok t) : t.file = bytes := by
  unfold ofFile ofFileAt at h
  split at h
  · cases h
  · rename_i s hs
    dsimp only at h
    split at h
    · rename_i s' hrun
      cases h
      have hsame := Tree.establish_keeps (T := ⟨rootPage, config⟩) (bytes_closed bytes) s
        (bytes_of_ofFile hs)
      rwa [hrun] at hsame
    · cases h

/-- **Other events than `flush` and closing** leave the bytes of the file as they are. -/
theorem bytes_step (path : String) (st : FileState) (he : e.saves = false) :
    (st.step path e).bytes = st.bytes := by
  cases e with
  | opens config =>
    unfold step
    dsimp only
    split
    · rename_i t hopen
      exact file_of_ofFile hopen
    · rfl
  | call call =>
    cases st with
    | closed bytes => rfl
    | opened t =>
      refine call.keeps (bytes_closed t.file) (fun hflush => ?_) rfl
      subst hflush
      cases he
  | closes => cases he
  | drops => rfl

/-- Events that write leave what `flush` writes. -/
theorem bytes_step_of_saves (path : String) (st : FileState) (he : e.saves = true) :
    (st.step path e).bytes = match st.table? with
      | some t => (flush t).2.file
      | none => st.bytes := by
  cases e with
  | opens config => cases he
  | call call =>
    cases st with
    | closed bytes => rfl
    | opened t =>
      cases call with
      | op o =>
        cases o with
        | flush => rfl
        | _ => cases he
      | _ => cases he
  | closes => cases st <;> rfl
  | drops => cases he

/-- **A run** leaves the file as the table left it that was written back last. -/
theorem bytes_run (path : String) (st : FileState) (events : List Event) :
    (run path st events).bytes = match lastSaved path st events with
      | some t => (flush t).2.file
      | none => st.bytes := by
  induction events generalizing st with
  | nil => rfl
  | cons e events ih =>
    rw [run_cons, ih, lastSaved]
    cases lastSaved path (st.step path e) events with
    | some t => rfl
    | none =>
      dsimp only
      by_cases he : e.saves = true
      · rw [if_pos he]
        exact bytes_step_of_saves path st he
      · rw [if_neg he]
        exact bytes_step path st (Bool.not_eq_true _ ▸ he)

/-! ## Runs from an empty file -/

/-- The file has whole pages within the limit, and a table that is open is intact. -/
def Ready : FileState → Prop
  | closed bytes => ∃ n ≤ maxPages, bytes.size = n * pageSize
  | opened t => t.pager.Intact

theorem Ready.whole (h : st.Ready) : ∃ n ≤ maxPages, st.bytes.size = n * pageSize := by
  cases st with
  | closed bytes => exact h
  | opened t =>
    have hs := Pager.Intact.faithful h
    exact ⟨_, Nat.le_trans hs.sound.pages_le hs.sound.count_le, hs.size_eq⟩

theorem Ready.table? (h : st.Ready) (ht : st.table? = some t) : t.pager.Intact := by
  cases st with
  | closed bytes => cases ht
  | opened u =>
    cases ht
    exact h

/-- A file that is left behind has whole pages. -/
theorem Ready.closed (h : st.Ready) : (FileState.closed st.bytes).Ready := h.whole

theorem Ready.step (h : st.Ready) (path : String) (e : Event) : (st.step path e).Ready := by
  cases e with
  | opens config =>
    obtain ⟨n, hn, hsize⟩ := h.whole
    obtain ⟨t, hopen, -, hfaithful, hd, hpos, -⟩ := ofFile_whole path config hsize hn
    unfold FileState.step
    dsimp only
    rw [hopen]
    exact ⟨hpos, hfaithful, hd⟩
  | call call =>
    cases st with
    | closed bytes => exact h
    | opened t => exact call.keeps Intact.closed (fun _ => Intact.flush_keeps) h
  | closes =>
    cases st with
    | closed bytes => exact h
    | opened t =>
      have hflush : (opened (flush t).2).Ready := (Call.op .flush).keeps Intact.closed
        (fun _ => Intact.flush_keeps) h
      exact hflush.closed
  | drops => exact h.closed

theorem Ready.run (h : st.Ready) (path : String) (events : List Event) :
    (st.run path events).Ready := by
  induction events generalizing st with
  | nil => exact h
  | cons e events ih => exact ih (h.step path e)

/-- A table that was written back was intact. -/
theorem Ready.lastSaved (h : st.Ready) {events : List Event}
    (ht : lastSaved path st events = some t) : t.pager.Intact := by
  induction events generalizing st with
  | nil => cases ht
  | cons e events ih =>
    unfold FileState.lastSaved at ht
    split at ht
    · rename_i u hu
      cases ht
      exact ih (h.step path e) hu
    · split at ht
      · exact h.table? ht
      · cases ht

end FileState

open FileState

/-- **What a file keeps.** Start with an empty file, and open tables on it, call them, close them
and drop them as you like. Then

* nothing but `flush` and closing changes the bytes of the file;
* `flush` succeeds on the table that is open;
* a table that is opened now, with whatever configuration, shows exactly the pages that the table
  showed that was written back last, and counts as many; without such a table it is a new one. -/
theorem open_sees_lastSaved (path : String) (events : List Event) :
    (∀ e : Event, e.saves = false →
      (((FileState.closed #[]).run path events).step path e).bytes =
        ((FileState.closed #[]).run path events).bytes) ∧
    (∀ t, ((FileState.closed #[]).run path events).table? = some t → (flush t).1 = .ok ()) ∧
    ∀ config, ∃ u, ofFile path ((FileState.closed #[]).run path events).bytes config = .ok u ∧
      match lastSaved path (.closed #[]) events with
      | some t => u.pageCount = t.pageCount ∧
          ∀ id, (fetch id u.pager).1 = (fetch id t.pager).1
      | none => u.pageCount = 1 ∧
          (fetch rootPage u.pager).1 = .ok ((Page.empty .leaf).setRoot true) ∧
          (scan u).1 = .ok [] := by
  have hnew : (FileState.closed #[]).Ready := ⟨0, Nat.zero_le _, rfl⟩
  refine ⟨fun e he => bytes_step path _ he, fun t ht => ?_, fun config => ?_⟩
  · obtain ⟨s, hrun, -⟩ := ((hnew.run path events).table? ht).flush_run
    exact congrArg Prod.fst (onTree_run (x := fun _ => Pager.flush) hrun)
  · rw [bytes_run]
    cases hsaved : lastSaved path (.closed #[]) events with
    | none => exact ofFile_empty path config
    | some t =>
      obtain ⟨u, hopen, -, halike⟩ := file_reopened path config (hnew.lastSaved hsaved)
      exact ⟨u, hopen, halike.count.symm, fun id =>
        (alike_accesses.fetch id _ _ halike).1.symm⟩

end Table

end PagedTable
