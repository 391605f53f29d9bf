import PagedTable.Proofs.Session.Answers

/-!
# What a session leaves in its file

A session that begins with an empty file, and that does not delete it, leaves the rows whose inserts
it acknowledged, unless a line ends it that is not a text. Such a line ends it before the table is
written back, and all rows are lost.

* `Keeps.flush_run`: a table that is written back can be opened again, and has the same rows.
* `Transcript.Ends`, `transcript_ends`: how a session ends, and the table that it leaves.
* `rows_survive`: what is in the file after a session.
* `rows_lost`: an insert that is acknowledged and then lost.
-/

namespace PagedTable

open PagedTable.Action Pager

namespace Table

variable {f : Fill} {t u : Table} {T : PageTree} {rows : List Row}

theorem Lists.select_run (h : Lists f rows t T) :
    ∃ sorted : List Row, sorted.Perm rows ∧ select t = (.ok sorted, t) := by
  obtain ⟨sorted, hperm, -, hrun⟩ := h.leadingRows_run
  refine ⟨sorted, hperm, ?_⟩
  rw [select, bind_ok hrun]
  rfl

/-- **A table that is written back** can be opened again with every configuration, and has the same
rows. -/
theorem Keeps.flush_run (h : t.Keeps rows) (path : String) (config : Config) :
    ∃ s u sorted, flush t = (.ok (), { t with pager := s }) ∧
      ofFile path s.disk.bytes config = .ok u ∧ (select u).1 = .ok sorted ∧ sorted.Perm rows := by
  obtain ⟨hroot, T, hT⟩ := h
  obtain ⟨s, u, hrun, hopen, htree, halike⟩ := flush_reopened path config hT.stands.intact
  have hu : Lists .loose rows u T := by
    refine ⟨⟨halike.right, Fill.loose_admits _, ?_⟩, hT.row_ok, hT.perm⟩
    rw [show u.tree.root = t.tree.root by rw [htree, hroot]]
    exact hT.stands.loosen.rooted.mono fun id _ x hx => halike.node?_eq id ▸ hx
  obtain ⟨sorted, hperm, hselect⟩ := hu.select_run
  exact ⟨s, u, sorted, onTree_run (x := fun _ => Pager.flush) hrun, hopen, by rw [hselect], hperm⟩

end Table

/-- How a session can end. -/
inductive Transcript.Ends (tr : Transcript) : Prop where
  | left (ending : tr.ending = .ok .leave) (whole : ∀ e ∈ tr.exchanges, ¬ e.Broken)
  | erased (ending : tr.ending = .ok .erase) (nuke : ∃ e ∈ tr.exchanges, e.statement? = some .nuke)
  | broken (ending : tr.ending = .error (.refused (.io .notUtf8)))
    (broken : ∃ e ∈ tr.exchanges, e.Broken)

/-- One more line before all others. -/
theorem Transcript.Ends.cons {tr : Transcript} {e : Exchange} (h : tr.Ends) (he : ¬ e.Broken) :
    Transcript.Ends { tr with exchanges := e :: tr.exchanges } := by
  cases h with
  | left ending whole => exact .left ending (List.forall_mem_cons.mpr ⟨he, whole⟩)
  | erased ending nuke =>
    obtain ⟨e', hmem, hnuke⟩ := nuke
    exact .erased ending ⟨e', List.mem_cons_of_mem _ hmem, hnuke⟩
  | broken ending broken =>
    obtain ⟨e', hmem, hbroken⟩ := broken
    exact .broken ending ⟨e', List.mem_cons_of_mem _ hmem, hbroken⟩

namespace Console

variable {t t' : Table} {rows : List Row} {e : Exchange} {r : Except Fault Outlook}

/-- An exchange that does not end a session is about a text. -/
theorem Exchanged.not_broken {outlook : Outlook} (h : Exchanged rows t e (.ok outlook) t') :
    ¬ e.Broken := by
  rintro ⟨hline, htext⟩
  cases h with
  | answered text _ =>
    rw [htext] at text
    cases text
  | finished line =>
    rw [line] at hline
    cases hline

/-- The last exchange. -/
theorem Exchanged.ends (h : Exchanged rows t e r t') (hr : r ≠ .ok .proceed) :
    Transcript.Ends ⟨[e], r, t'⟩ := by
  have hmem : e ∈ [e] := List.mem_singleton_self e
  cases h with
  | broken broken => exact .broken rfl ⟨e, hmem, broken⟩
  | finished line =>
    have hfinished : Exchanged rows t e (.ok .leave) t := .finished line
    exact .left rfl (List.forall_mem_singleton.mpr hfinished.not_broken)
  | @answered outlook _ text answered =>
    have hwhole : ∀ e' ∈ [e], ¬ e'.Broken :=
      List.forall_mem_singleton.mpr (Exchanged.not_broken (.answered text answered))
    generalize hs : e.statement? = s, e.answer = answer at answered
    cases answered with
    | exit => exact .left rfl hwhole
    | nuke => exact .erased rfl ⟨e, hmem, hs⟩
    | _ => exact absurd rfl hr

/-- **Every session ends** in one of these ways, and leaves a table with the rows that it
acknowledged. -/
theorem transcript_ends (h : t.Keeps rows) (lines : List (List UInt8)) :
    (transcript lines t).table.Keeps (rows ++ inserted (transcript lines t).exchanges) ∧
      (transcript lines t).Ends := by
  have hlast : ∀ {rows t e r t'}, t.Keeps rows → Exchanged rows t e r t' → r ≠ .ok .proceed →
      t'.Keeps (rows ++ inserted [e]) ∧ Transcript.Ends ⟨[e], r, t'⟩ := by
    intro rows t e r t' ht hexchanged hr
    refine ⟨?_, hexchanged.ends hr⟩
    rw [inserted_cons, inserted, List.filterMap_nil, List.append_nil]
    exact hexchanged.keeps ht
  induction lines generalizing t rows with
  | nil => exact hlast h (.finished rfl) (by decide)
  | cons line rest ih =>
    obtain ⟨e, r, t', hexchanged, ⟨hr, hend⟩ | ⟨rfl, line', rest', heq, -, hnext⟩⟩ :=
      transcript_cases h (line :: rest)
    · rw [hend]
      exact hlast h hexchanged hr
    · cases heq
      obtain ⟨hkeeps, hends⟩ := ih (hexchanged.keeps h)
      rw [hnext]
      refine ⟨?_, hends.cons hexchanged.not_broken⟩
      rwa [inserted_cons, ← List.append_assoc]

/-- **A table without rows** takes every row that fits. -/
theorem transcript_of_insert {row : Row} {line : List UInt8} (h : t.Keeps [])
    (hline : ∀ answer, (⟨some line, answer⟩ : Exchange).statement? = some (.insert row))
    (hfits : row.Fits) :
    ∃ t', t'.Keeps [row] ∧ ∀ rest, transcript (line :: rest) t =
      { transcript rest t' with
        exchanges := ⟨some line, executed⟩ :: (transcript rest t').exchanges } := by
  obtain ⟨r, c, hturn, hexchanged⟩ := turn_run h line
  have hs := hline c.output
  have hanswer : r = .ok .proceed ∧ c.output = executed ∧ c.table.Keeps [row] := by
    generalize c.table = t' at hexchanged ⊢
    cases hexchanged with
    | broken broken => rw [Exchange.statement?_eq_none broken.2] at hs; cases hs
    | finished line => cases line
    | answered _ answered =>
      rw [hs] at answered
      generalize hanswer : (⟨some line, c.output⟩ : Exchange).answer = answer at answered
      cases answered with
      | executed keeps => exact ⟨rfl, hanswer, keeps⟩
      | refused refusal =>
        cases refusal with
        | large excess => exact absurd hfits.1 (Nat.not_le.mpr excess)
        | nul mem => exact absurd mem hfits.2
        | duplicate _ mem => cases mem
        | full _ _ crowded => cases crowded
  obtain ⟨rfl, houtput, hkeeps⟩ := hanswer
  refine ⟨c.table, hkeeps, fun rest => ?_⟩
  rw [transcript_of_proceed hturn, houtput]

end Console

namespace Session

open Console

/-- The rows in the file after a session. -/
inductive Survives (tr : Transcript) (s : Session) (rows : List Row) : Prop
  /-- All lines were texts, and all rows are there. -/
  | kept (whole : ∀ e ∈ tr.exchanges, ¬ e.Broken) (failure : s.failure = none)
    (perm : rows.Perm (inserted tr.exchanges))
  /-- A line that was not a text has ended the session, and no row is there. -/
  | lost (broken : ∃ e ∈ tr.exchanges, e.Broken)
    (failure : s.failure = some (.refused (.io .notUtf8))) (empty : rows = [])

variable {volume volume' : Volume} {path : String} {location : Location}

/-- What a session that does not delete its file leaves there. -/
theorem exists_survives {input : List UInt8} {tr : Transcript}
    (hopen : volume.openFile path = .ok (location, #[], volume'))
    (htr : transcript path #[] input = .ok tr)
    (hnuke : ∀ e ∈ tr.exchanges, e.statement? ≠ some .nuke) (config : Config) :
    ∃ bytes u rows, (run volume path input).volume.openFile path =
        .ok (location, bytes, (run volume path input).volume) ∧
      Table.ofFile path bytes config = .ok u ∧ (Table.select u).1 = .ok rows ∧
      Survives tr (run volume path input) rows := by
  obtain ⟨t, hnew, htr'⟩ := transcript_new path
  obtain rfl := Except.ok.inj (htr.symm.trans (htr' input))
  rw [run_eq hopen htr]
  obtain ⟨hkeeps, hends⟩ := transcript_ends hnew (linesAfter [] input)
  generalize Console.transcript (linesAfter [] input) t = tr at hkeeps hends hnuke ⊢
  cases hends with
  | left ending whole =>
    obtain ⟨s, u, rows, hflush, hopen', hselect, hperm⟩ := hkeeps.flush_run path config
    rw [ending, hflush]
    have hread : (volume'.write location s.disk.bytes).read? location = some s.disk.bytes := by
      rw [Volume.read?_write, if_pos rfl]
    exact ⟨_, u, rows, Volume.openFile_again hopen hread, hopen', hselect, .kept whole rfl hperm⟩
  | erased ending nuke =>
    obtain ⟨e, hmem, he⟩ := nuke
    exact absurd he (hnuke e hmem)
  | broken ending broken =>
    obtain ⟨u, hopen', -, T, hT⟩ := Table.ofFile_keeps path config
    obtain ⟨rows, hperm, hselect⟩ := hT.select_run
    rw [ending]
    refine ⟨_, u, rows, Volume.openFile_again hopen (Volume.openFile_eq_ok hopen).2, hopen', ?_,
      .lost broken rfl hperm.eq_nil⟩
    rw [hselect]

/-- **What a session leaves in its file.** If all lines are texts and none deletes the file, the
rows whose inserts were acknowledged are there afterwards, and no other rows. If one is not a text,
the session ends there, and no rows are left. -/
theorem rows_survive (hopen : volume.openFile path = .ok (location, #[], volume'))
    (input : List UInt8) :
    ∃ tr, transcript path #[] input = .ok tr ∧ (run volume path input).output = tr.output ∧
      ((∀ e ∈ tr.exchanges, e.statement? ≠ some .nuke) → ∀ config, ∃ bytes u rows,
        (run volume path input).volume.openFile path =
          .ok (location, bytes, (run volume path input).volume) ∧
        Table.ofFile path bytes config = .ok u ∧ (Table.select u).1 = .ok rows ∧
        Survives tr (run volume path input) rows) := by
  obtain ⟨t, -, htr⟩ := transcript_new path
  exact ⟨_, htr input, output_eq hopen (htr input), exists_survives hopen (htr input)⟩

/-- The line that inserts one row. -/
def insertLine : List UInt8 := Utf8.encode "insert 1 a\n"

/-- A session on a new file whose first line inserts a row. -/
theorem exists_of_insertLine (rest : List UInt8) :
    ∃ t, t.Keeps [⟨1, "a"⟩] ∧ ∀ tr, transcript defaultPath #[] (insertLine ++ rest) = .ok tr →
      tr.exchanges =
        ⟨some insertLine, executed⟩ :: (Console.transcript (linesAfter [] rest) t).exchanges := by
  obtain ⟨t, hnew, htr⟩ := transcript_new defaultPath
  have hfits : Row.Fits ⟨1, "a"⟩ := by decide
  have hstatement : ∀ answer, (⟨some insertLine, answer⟩ : Exchange).statement? =
      some (.insert ⟨1, "a"⟩) := fun _ => rfl
  obtain ⟨t', hkeeps, hrun⟩ := transcript_of_insert hnew hstatement hfits
  have hlines : linesAfter [] (insertLine ++ rest) = insertLine :: linesAfter [] rest := rfl
  refine ⟨t', hkeeps, fun tr h => ?_⟩
  rw [htr, hlines, hrun] at h
  rw [← Except.ok.inj h]

/-- One insert into a new file. -/
theorem rows_survive_insert :
    ∃ tr, transcript defaultPath #[] insertLine = .ok tr ∧
      inserted tr.exchanges = [⟨1, "a"⟩] ∧ ∀ config, ∃ bytes u,
        (run {} defaultPath insertLine).volume.openFile defaultPath =
          .ok (⟨.start, defaultPath⟩, bytes, (run {} defaultPath insertLine).volume) ∧
        Table.ofFile defaultPath bytes config = .ok u ∧ (Table.select u).1 = .ok [⟨1, "a"⟩] := by
  obtain ⟨tr, htr, -, hsurvives⟩ := rows_survive openFile_new insertLine
  obtain ⟨t, -, hex⟩ := exists_of_insertLine []
  have hex : tr.exchanges = [⟨some insertLine, executed⟩, ⟨none, ""⟩] := hex tr htr
  have hrows : inserted tr.exchanges = [⟨1, "a"⟩] := by rw [hex]; rfl
  have hnuke : ∀ e ∈ tr.exchanges, e.statement? ≠ some .nuke := by rw [hex]; decide
  refine ⟨tr, htr, hrows, fun config => ?_⟩
  obtain ⟨bytes, u, rows, hopen, hu, hselect, hrest⟩ := hsurvives hnuke config
  refine ⟨bytes, u, hopen, hu, ?_⟩
  cases hrest with
  | kept _ _ perm =>
    rw [hrows, List.perm_singleton] at perm
    rw [hselect, perm]
  | lost broken =>
    obtain ⟨e, hmem, hbroken⟩ := broken
    rw [hex, List.mem_pair] at hmem
    rcases hmem with rfl | rfl
    · cases hbroken.2
    · cases hbroken.1

/-- A line that is not a text. -/
def brokenLine : List UInt8 := [0xFF, 0x0A]

theorem decode_brokenLine : ∃ flaw, Utf8.decode brokenLine = .error flaw :=
  Utf8.decode_of_not_first (by decide) [0x0A]

theorem text?_brokenLine (answer : String) :
    (⟨some brokenLine, answer⟩ : Exchange).text? = none := by
  obtain ⟨flaw, hflaw⟩ := decode_brokenLine
  rw [Exchange.text?, Option.bind_some, hflaw]
  rfl

/-- A row is inserted into a new file, and then the session is ended. -/
theorem exchanges_of_brokenLine {tr : Transcript}
    (htr : transcript defaultPath #[] (insertLine ++ brokenLine) = .ok tr) :
    tr.exchanges = [⟨some insertLine, executed⟩, ⟨some brokenLine, ""⟩] := by
  obtain ⟨t, -, hex⟩ := exists_of_insertLine brokenLine
  obtain ⟨flaw, hflaw⟩ := decode_brokenLine
  have hlines : linesAfter [] brokenLine = [brokenLine] := rfl
  rw [hex tr htr, hlines, transcript_of_end (turn_of_broken hflaw t) (by decide)]
  rfl

/-- A row whose insert was acknowledged is not there afterwards. -/
theorem rows_lost :
    ∃ tr bytes u, transcript defaultPath #[] (insertLine ++ brokenLine) = .ok tr ∧
      (run {} defaultPath (insertLine ++ brokenLine)).output = tr.output ∧
      (∀ e ∈ tr.exchanges, e.statement? ≠ some .nuke) ∧ inserted tr.exchanges = [⟨1, "a"⟩] ∧
      (run {} defaultPath (insertLine ++ brokenLine)).volume.openFile defaultPath =
        .ok (⟨.start, defaultPath⟩, bytes,
          (run {} defaultPath (insertLine ++ brokenLine)).volume) ∧
      Table.ofFile defaultPath bytes .full = .ok u ∧ (Table.select u).1 = .ok [] := by
  obtain ⟨t, -, htr⟩ := transcript_new defaultPath
  have htr := htr (insertLine ++ brokenLine)
  generalize Console.transcript (linesAfter [] (insertLine ++ brokenLine)) t = tr at htr
  have hex := exchanges_of_brokenLine htr
  have hnuke : ∀ e ∈ tr.exchanges, e.statement? ≠ some .nuke := by
    intro e hmem
    rw [hex, List.mem_pair] at hmem
    rcases hmem with rfl | rfl
    · decide
    · rw [Exchange.statement?_eq_none (text?_brokenLine _)]
      exact (Option.some_ne_none _).symm
  have hrows : inserted tr.exchanges = [⟨1, "a"⟩] := by
    rw [hex, inserted_cons, inserted_cons, Exchange.inserted?_eq_none (text?_brokenLine _)]
    rfl
  obtain ⟨bytes, u, rows, hopen, hu, hselect, hrest⟩ :=
    exists_survives openFile_new htr hnuke .full
  refine ⟨tr, bytes, u, htr, output_eq openFile_new htr, hnuke, hrows, hopen, hu, ?_⟩
  cases hrest with
  | lost _ _ empty => rw [hselect, empty]
  | kept whole =>
    rw [hex] at whole
    exact absurd ⟨rfl, text?_brokenLine ""⟩ (whole _ (List.mem_pair.mpr (.inr rfl)))

end Session

end PagedTable
