import PagedTable.Proofs.Action.Respects
import PagedTable.Session

/-!
# Transcripts

A session prompts for a line, answers it, and prompts for the next one. Its transcript says line by
line what was answered. What is printed for a line depends on the line and on the table alone, not
on what was printed before.

* `Console.transcript`: the transcript of a session on an open table.
* `Console.turn_printed`: a line is answered alike whatever was printed before.
* `Console.converse_run`: a session prints what its transcript says.
* `Session.run_eq`: what a session on a file comes to.
-/

namespace PagedTable

/-- What a session read after a prompt, and what it printed before the next one. -/
structure Exchange where
  /-- The bytes of a line, or `none` at the end of the input. -/
  line? : Option (List UInt8)
  answer : String

/-- What a session read and printed. -/
structure Transcript where
  exchanges : List Exchange
  /-- How the session ended. -/
  ending : Except Fault Outlook
  /-- The table that it left. -/
  table : Table

/-- All that a session printed. -/
def Transcript.output (tr : Transcript) : String :=
  String.join (tr.exchanges.map fun e => Console.prompt ++ e.answer)

namespace Console

open PagedTable.Action

/-- The transcript of a session on an open table that reads these lines. -/
def transcript : List (List UInt8) → Table → Transcript
  | [], t => { exchanges := [⟨none, ""⟩], ending := .ok .leave, table := t }
  | line :: rest, t =>
    match turn (some line) { table := t } with
    | (.ok .proceed, c) =>
      let later := transcript rest c.table
      { later with exchanges := ⟨some line, c.output⟩ :: later.exchanges }
    | (r, c) => { exchanges := [⟨some line, c.output⟩], ending := r, table := c.table }

/-! ## What was printed before -/

/-- The same table, where `earlier` was printed before all that the first console shows. -/
structure Behind (earlier : List String) (c c' : Console) : Prop where
  table : c'.table = c.table
  printed : c'.printed = c.printed ++ earlier

variable {earlier : List String} {α : Type}

theorem print_respects (text : String) : Respects (Behind earlier) (print text) :=
  .change fun _ _ h => ⟨h.table, congrArg (text :: ·) h.printed⟩

theorem onTable_respects (x : Action Table α) : Respects (Behind earlier) (onTable x) := by
  have hx : Respects Eq x := fun t t' h => by
    subst h
    exact ⟨rfl, rfl⟩
  exact .onPart hx (fun _ _ h => h.table.symm) fun _ _ _ _ h hs => ⟨hs.symm, h.printed⟩

theorem execute_respects (s : Statement) : Respects (Behind earlier) (execute s) := by
  cases s with
  | insert row =>
    exact .bind (onTable_respects _) fun _ => .bind (print_respects _) fun _ => .pure _
  | select =>
    refine .bind (onTable_respects _) fun ⟨rows, flaw⟩ => .bind ?_ fun _ => ?_
    · exact .forM fun _ _ => print_respects _
    · cases flaw with
      | some e => exact .fail _
      | none => exact .bind (print_respects _) fun _ => .pure _
  | outline =>
    exact .bind (print_respects _) fun _ => .bind (onTable_respects _) fun _ =>
      .bind (print_respects _) fun _ => .pure _
  | validate =>
    exact .bind (onTable_respects _) fun _ => .bind (print_respects _) fun _ => .pure _
  | constants => exact .bind (.forM fun _ _ => print_respects _) fun _ => .pure _
  | exit => exact .pure _
  | nuke => exact .pure _

theorem respond_respects (line : String) : Respects (Behind earlier) (respond line) := by
  unfold respond
  refine .ite (.pure _) ?_
  cases Statement.parse (trim line.toList) with
  | error flaw => exact .bind (print_respects _) fun _ => .pure _
  | ok s =>
    refine .bind (.attempt (execute_respects s)) fun r => ?_
    cases r with
    | ok outlook => exact .pure _
    | error e => exact .bind (print_respects _) fun _ => .pure _

theorem turn_respects (line? : Option (List UInt8)) : Respects (Behind earlier) (turn line?) := by
  cases line? with
  | none => exact .pure _
  | some line =>
    refine .bind ?_ respond_respects
    unfold text
    cases Utf8.decode line with
    | ok text => exact .pure _
    | error flaw => exact .fail _

/-- **What was printed before** makes no difference to how a line is answered. -/
theorem turn_printed {line? : Option (List UInt8)} {t t' : Table} {printed : List String}
    {r : Except Fault Outlook} (h : turn line? { table := t } = (r, ⟨t', printed⟩))
    (earlier : List String) : turn line? ⟨t, earlier⟩ = (r, ⟨t', printed ++ earlier⟩) := by
  have hbehind : Behind earlier { table := t } ⟨t, earlier⟩ := ⟨rfl, rfl⟩
  obtain ⟨hr, htable, hprinted⟩ := turn_respects line? _ _ hbehind
  rw [h] at hr htable hprinted
  rcases hrun : turn line? ⟨t, earlier⟩ with ⟨r', t'', printed'⟩
  rw [hrun] at hr htable hprinted
  cases hr
  cases htable
  cases hprinted
  rfl

/-! ## Sessions -/

section

variable {line : List UInt8} {rest : List (List UInt8)} {t : Table} {c : Console}
  {r : Except Fault Outlook}

/-- After a line that does not end the session there is another prompt. -/
theorem transcript_of_proceed (h : turn (some line) { table := t } = (.ok .proceed, c)) :
    transcript (line :: rest) t =
      { transcript rest c.table with
        exchanges := ⟨some line, c.output⟩ :: (transcript rest c.table).exchanges } := by
  rw [transcript, h]

/-- A line that ends the session is the last one. -/
theorem transcript_of_end (h : turn (some line) { table := t } = (r, c))
    (hr : r ≠ .ok .proceed) :
    transcript (line :: rest) t =
      { exchanges := [⟨some line, c.output⟩], ending := r, table := c.table } := by
  rw [transcript, h]
  rcases r with e | outlook
  · rfl
  · cases outlook with
    | proceed => exact absurd rfl hr
    | leave => rfl
    | erase => rfl

theorem output_append (t : Table) (printed earlier : List String) :
    output ⟨t, printed ++ earlier⟩ = output ⟨t, earlier⟩ ++ output ⟨t, printed⟩ := by
  rw [output, output, output, List.reverse_append, String.join_append]

theorem print_run (text : String) (t : Table) (printed : List String) :
    print text ⟨t, printed⟩ = (.ok (), ⟨t, text :: printed⟩) := rfl

/-- What is printed after a prompt. -/
theorem output_append_prompt (t t' : Table) (printed earlier : List String) :
    output ⟨t', printed ++ prompt :: earlier⟩ =
      output ⟨t, earlier⟩ ++ (prompt ++ output ⟨t', printed⟩) := by
  rw [output_append, ← List.singleton_append, output_append, String.append_assoc]
  rfl

/-- **A session prints what its transcript says**, and ends as it says. -/
theorem converse_run (lines : List (List UInt8)) (t : Table) (earlier : List String) :
    ∃ printed, converse lines ⟨t, earlier⟩ =
        ((transcript lines t).ending, ⟨(transcript lines t).table, printed⟩) ∧
      output ⟨(transcript lines t).table, printed⟩ =
        output ⟨t, earlier⟩ ++ (transcript lines t).output := by
  induction lines generalizing t earlier with
  | nil =>
    refine ⟨prompt :: earlier, rfl, ?_⟩
    exact output_append_prompt t t [] earlier
  | cons line rest ih =>
    rcases hturn : turn (some line) { table := t } with ⟨r, t', printed⟩
    have hrun := turn_printed hturn (prompt :: earlier)
    have houtput := output_append_prompt t t' printed earlier
    rw [converse, bind_ok (print_run prompt t earlier)]
    by_cases hr : r = .ok .proceed
    · subst hr
      obtain ⟨printed', hc, hout⟩ := ih t' (printed ++ prompt :: earlier)
      rw [bind_ok hrun, transcript_of_proceed hturn]
      refine ⟨printed', hc, hout.trans ?_⟩
      rw [houtput, String.append_assoc]
      simp only [Transcript.output, List.map_cons, String.join_cons]
    · rw [transcript_of_end hturn hr]
      have hlast : output ⟨t', printed ++ prompt :: earlier⟩ = output ⟨t, earlier⟩ ++
          Transcript.output ⟨[⟨some line, output ⟨t', printed⟩⟩], r, t'⟩ := by
        rw [houtput, Transcript.output, List.map_singleton, String.join_cons, String.join_nil,
          String.append_empty]
      refine ⟨printed ++ prompt :: earlier, ?_, hlast⟩
      rcases r with e | outlook
      · rw [bind_error hrun]
      · rw [bind_ok hrun]
        cases outlook with
        | proceed => exact absurd rfl hr
        | leave => rfl
        | erase => rfl

end

end Console

namespace Session

/-- The transcript of a session on a file of these bytes. -/
def transcript (path : String) (bytes : Array UInt8) (input : List UInt8) :
    Except Fault Transcript := do
  let t ← Table.ofFile path bytes .full
  return Console.transcript (linesAfter [] input) t

/-- **What a session comes to.** It writes the table back when it has ended of its own accord. -/
theorem run_eq {volume volume' : Volume} {path : String} {location : Location}
    {bytes : Array UInt8} {input : List UInt8} {tr : Transcript}
    (hopen : volume.openFile path = .ok (location, bytes, volume'))
    (htr : transcript path bytes input = .ok tr) :
    run volume path input = match tr.ending with
      | .error e => { output := tr.output, failure := some e, volume := volume' }
      | .ok .erase => { output := tr.output, volume := volume'.erase location }
      | .ok _ => match Table.flush tr.table with
        | (.ok (), t) => { output := tr.output, volume := volume'.write location t.file }
        | (.error e, t) =>
          { output := tr.output, failure := some e, volume := volume'.write location t.file } := by
  unfold transcript at htr
  unfold run
  rw [hopen]
  dsimp only
  cases ht : Table.ofFile path bytes .full with
  | error e =>
    rw [ht] at htr
    cases htr
  | ok t =>
    rw [ht] at htr
    cases htr
    obtain ⟨printed, hrun, houtput⟩ := Console.converse_run (linesAfter [] input) t []
    have houtput : Console.output ⟨_, printed⟩ = _ := houtput.trans (String.empty_append)
    dsimp only
    rw [hrun, ← houtput]
    generalize Console.transcript (linesAfter [] input) t = tr
    rcases tr.ending with e | outlook
    · rfl
    · cases outlook <;> rfl

/-- A session prints what its transcript says, however it ends. -/
theorem output_eq {volume volume' : Volume} {path : String} {location : Location}
    {bytes : Array UInt8} {input : List UInt8} {tr : Transcript}
    (hopen : volume.openFile path = .ok (location, bytes, volume'))
    (htr : transcript path bytes input = .ok tr) : (run volume path input).output = tr.output := by
  rw [run_eq hopen htr]
  rcases tr.ending with e | outlook
  · rfl
  · rcases Table.flush tr.table with ⟨e | ⟨⟩, t⟩ <;> cases outlook <;> rfl

end Session

end PagedTable
