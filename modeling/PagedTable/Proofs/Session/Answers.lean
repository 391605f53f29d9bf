import PagedTable.Proofs.Session.Lines
import PagedTable.Proofs.Session.Transcript
import PagedTable.Proofs.Table.Rows

/-!
# What a session answers

A session that begins with an empty file answers as a sorted table does, and the rows in the table
are those whose inserts it acknowledged.

* `Exchange.statement?`, `inserted`: the statement on a line, and the rows that were acknowledged.
* `Exchange.Sorted`: the answer of a sorted table.
* `Table.Answered`: all that a line can be answered. `respond_run`: every line is answered so.
* `exists_of_exchanges`: any exchange of a session.
* `answers_as_sorted_table`: select, insert and check answer as a sorted table does, and other lines
  make no difference.
-/

namespace PagedTable

open PagedTable.Action

/-- What is printed for an insert, or after all rows. -/
def executed : String := "Executed.\n"

/-- What is printed for a statement that is refused. -/
def errorLine (e : DbError) : String := "Error: " ++ e.message ++ "\n"

/-- All rows, as they are printed. -/
def listing (rows : List Row) : String := String.join (rows.map fun row => row.render ++ "\n")

namespace Exchange

/-- The line as a text, if it is one. -/
def text? (e : Exchange) : Option String :=
  e.line?.bind fun line => (Utf8.decode line).toOption

/-- There is a line, which is no text. -/
def Broken (e : Exchange) : Prop := e.line?.isSome ∧ e.text? = none

/-- The statement on the line, if it is one. -/
def statement? (e : Exchange) : Option Statement :=
  e.text?.bind fun text => (Statement.parse (trim text.toList)).toOption

/-- The row of an insert that was acknowledged. -/
def inserted? (e : Exchange) : Option Row :=
  match e.statement? with
  | some (.insert row) => if e.answer = executed then some row else none
  | _ => none

variable {e : Exchange}

theorem text?_eq_none (h : e.line? = none) : e.text? = none := by
  rw [text?, h]
  rfl

theorem statement?_eq_none (h : e.text? = none) : e.statement? = none := by
  rw [statement?, h]
  rfl

theorem inserted?_eq_none (h : e.text? = none) : e.inserted? = none := by
  rw [inserted?, statement?_eq_none h]

end Exchange

/-- The rows whose inserts were acknowledged. -/
def inserted (exchanges : List Exchange) : List Row := exchanges.filterMap Exchange.inserted?

/-- The answer is that of a sorted table with the rows that were inserted before. -/
structure Exchange.Sorted (before : List Exchange) (e : Exchange) : Prop where
  /-- All rows are printed, in the order of ids. -/
  select : e.statement? = some .select → ∃ rows : List Row, rows.Perm (inserted before) ∧
    (rows.map Row.id).Pairwise (· < ·) ∧ e.answer = listing rows ++ executed
  /-- A row is put in, or there is a reason against it. -/
  insert : ∀ row, e.statement? = some (.insert row) → e.answer = executed ∨
    ∃ cause, Table.Refusal (inserted before) row cause ∧ e.answer = errorLine cause
  /-- A row is refused for its id if the id is there, and the row could be stored otherwise. -/
  duplicate : ∀ row, e.statement? = some (.insert row) →
    (e.answer = errorLine (.duplicateKey row.id) ↔
      row.id ∈ (inserted before).map Row.id ∧ row.Fits)
  validate : e.statement? = some .validate → e.answer = "Validation succeeded.\n"

theorem head?_append {a b : String} {c : Char} (h : a.toList.head? = some c) :
    (a ++ b).toList.head? = some c := by
  rw [String.toList_append, List.head?_append, h]
  rfl

theorem errorLine_ne_executed (e : DbError) : errorLine e ≠ executed := by
  intro heq
  have hsecond := congrArg (fun text : String => text.toList[1]?) heq
  simp [errorLine, executed] at hsecond

theorem errorLine_inj {e e' : DbError} (h : errorLine e = errorLine e') :
    e.message = e'.message := by
  rw [errorLine, errorLine, String.append_left_inj, String.append_right_inj] at h
  exact h

namespace Table

variable {t t' : Table} {rows : List Row} {row : Row}

/-- A refusal is answered with the line for duplicate keys exactly if the key is there. -/
theorem Refusal.errorLine_eq_iff {e : DbError} (h : Refusal rows row e) :
    errorLine e = errorLine (.duplicateKey row.id) ↔ row.id ∈ rows.map Row.id ∧ row.Fits := by
  have hdup : (DbError.duplicateKey row.id).message.toList.head? = some 'D' := head?_append rfl
  have hne : ∀ c : Char, c ≠ 'D' → e.message.toList.head? = some c →
      errorLine e ≠ errorLine (.duplicateKey row.id) := by
    intro c hc hhead heq
    rw [errorLine_inj heq, hdup] at hhead
    exact hc (Option.some.inj hhead).symm
  cases h with
  | large excess =>
    refine iff_of_false (hne 'R' (by decide) ?_) fun h => absurd h.2.1 (Nat.not_le.mpr excess)
    exact head?_append (head?_append (head?_append (head?_append rfl)))
  | nul mem =>
    exact iff_of_false (hne 'I' (by decide) (head?_append rfl)) fun h => absurd mem h.2.2
  | duplicate fits mem => exact iff_of_true rfl ⟨mem, fits⟩
  | full page notMem _ =>
    refine iff_of_false (hne 'P' (by decide) ?_) fun h => absurd h.1 notMem
    exact head?_append (head?_append (head?_append (head?_append rfl)))

/-! ## One line -/

/-- All that a line can be answered at a table that holds `rows`, how the session goes on, and the
table that is left. -/
inductive Answered (rows : List Row) (t : Table) :
    Option Statement → Outlook → String → Table → Prop where
  /-- The line has no words, or they are no statement. -/
  | unread (answer : String) : Answered rows t none .proceed answer t
  | select {sorted : List Row} (perm : sorted.Perm rows)
    (ordered : (sorted.map Row.id).Pairwise (· < ·)) :
    Answered rows t (some .select) .proceed (listing sorted ++ executed) t
  | executed {row : Row} {t' : Table} (keeps : t'.Keeps (rows ++ [row])) :
    Answered rows t (some (.insert row)) .proceed executed t'
  | refused {row : Row} {e : DbError} (refusal : Refusal rows row e) :
    Answered rows t (some (.insert row)) .proceed (errorLine e) t
  | outline (answer : String) : Answered rows t (some .outline) .proceed answer t
  | validate : Answered rows t (some .validate) .proceed "Validation succeeded.\n" t
  | constants (answer : String) : Answered rows t (some .constants) .proceed answer t
  | exit : Answered rows t (some .exit) .leave "" t
  | nuke : Answered rows t (some .nuke) .erase "" t

end Table

namespace Console

open Table

variable {t : Table} {rows : List Row}

theorem onTable_run {α : Type} {x : Action Table α} {t t' : Table} {r : Except Fault α}
    (h : x t = (r, t')) (printed : List String) :
    onTable x ⟨t, printed⟩ = (r, ⟨t', printed⟩) := by
  unfold onTable onPart
  rw [h]

/-- Lines are printed one after the other. -/
theorem printLines_run {α : Type} (text : α → String) (items : List α) (t : Table)
    (printed : List String) :
    (items.forM fun a => printLine (text a)) ⟨t, printed⟩ =
      (.ok (), ⟨t, (items.map fun a => text a ++ "\n").reverse ++ printed⟩) := by
  induction items generalizing printed with
  | nil => rfl
  | cons a items ih =>
    show (printLine (text a) >>= fun _ => items.forM fun a => printLine (text a)) _ = _
    rw [printLine, bind_ok (print_run _ t printed), ih, List.map_cons, List.reverse_cons,
      List.append_assoc, List.singleton_append]

/-- **A statement** is answered, or it is an insert that is refused. -/
theorem execute_run (h : t.Keeps rows) (s : Statement) :
    (∃ outlook t' printed, execute s { table := t } = (.ok outlook, ⟨t', printed⟩) ∧
      t.Answered rows (some s) outlook (output ⟨t', printed⟩) t') ∨
    ∃ e, execute s { table := t } = (.error (.refused e), { table := t }) ∧
      t.Answered rows (some s) .proceed (errorLine e) t := by
  obtain ⟨-, T, hT⟩ := id h
  cases s with
  | insert row =>
    rw [execute]
    rcases h.insertRow_run row with ⟨e, he, hrun⟩ | ⟨t', ht', hrun⟩
    · rw [bind_error (onTable_run hrun [])]
      exact .inr ⟨e, rfl, .refused he⟩
    · rw [bind_ok (onTable_run hrun [])]
      exact .inl ⟨_, _, _, rfl, .executed ht'⟩
  | select =>
    obtain ⟨sorted, hperm, hordered, hrun⟩ := hT.leadingRows_run
    rw [execute]
    rw [bind_ok (onTable_run hrun [])]
    dsimp only
    rw [bind_ok (printLines_run Row.render sorted t [])]
    refine .inl ⟨_, _, _, rfl, ?_⟩
    have houtput :
        output ⟨t, executed :: ((sorted.map fun row => row.render ++ "\n").reverse ++ [])⟩ =
          listing sorted ++ executed := by
      rw [output, List.reverse_cons, List.append_nil, List.reverse_reverse, String.join_append,
        String.join_cons, String.join_nil, String.append_empty, listing]
    have ha : t.Answered rows (some .select) .proceed _ t := .select hperm hordered
    rwa [← houtput] at ha
  | outline =>
    rw [execute, printLine]
    rw [bind_ok (print_run _ t []), bind_ok (onTable_run hT.stands.dump_run _)]
    exact .inl ⟨_, _, _, rfl, .outline _⟩
  | validate =>
    rw [execute]
    rw [bind_ok (onTable_run hT.stands.validate_ok [])]
    exact .inl ⟨_, _, _, rfl, .validate⟩
  | constants =>
    rw [execute]
    rw [bind_ok (printLines_run _ constants t [])]
    exact .inl ⟨_, _, _, rfl, .constants _⟩
  | exit => exact .inl ⟨_, _, _, rfl, .exit⟩
  | nuke => exact .inl ⟨_, _, _, rfl, .nuke⟩

/-- **A line** is answered. -/
theorem respond_run (h : t.Keeps rows) (line : String) :
    ∃ outlook t' printed, respond line { table := t } = (.ok outlook, ⟨t', printed⟩) ∧
      t.Answered rows (Statement.parse (trim line.toList)).toOption outlook
        (output ⟨t', printed⟩) t' := by
  unfold respond
  by_cases hempty : (trim line.toList).isEmpty = true
  · rw [if_pos hempty, List.isEmpty_iff.mp hempty]
    exact ⟨_, _, _, rfl, .unread _⟩
  · rw [if_neg hempty]
    cases Statement.parse (trim line.toList) with
    | error flaw => exact ⟨_, _, _, rfl, .unread _⟩
    | ok s =>
      dsimp only
      rcases execute_run h s with ⟨outlook, t', printed, hrun, ha⟩ | ⟨e, hrun, ha⟩
      · rw [bind_ok (attempt_ok hrun)]
        exact ⟨_, _, _, rfl, ha⟩
      · rw [bind_ok (attempt_refused hrun)]
        exact ⟨_, _, _, rfl, ha⟩

/-! ## Exchanges -/

/-- All that can come of an exchange at a table that holds `rows`: how the session goes on, and the
table that is left. -/
inductive Exchanged (rows : List Row) (t : Table) (e : Exchange) :
    Except Fault Outlook → Table → Prop where
  | answered {outlook : Outlook} {t' : Table} (text : e.text?.isSome)
    (answered : t.Answered rows e.statement? outlook e.answer t') :
    Exchanged rows t e (.ok outlook) t'
  | broken (broken : e.Broken) : Exchanged rows t e (.error (.refused (.io .notUtf8))) t
  /-- The end of the input. -/
  | finished (line : e.line? = none) : Exchanged rows t e (.ok .leave) t

variable {e : Exchange} {outlook : Outlook} {r : Except Fault Outlook} {t' : Table}

/-- Bytes that are no text end the session. -/
theorem turn_of_broken {line : List UInt8} {flaw : Utf8.Flaw} (h : Utf8.decode line = .error flaw)
    (t : Table) :
    turn (some line) { table := t } = (.error (.refused (.io .notUtf8)), { table := t }) := by
  have hrun : text line { table := t } = (.error (.refused (.io .notUtf8)), { table := t }) := by
    rw [text, h]
    rfl
  exact bind_error hrun

/-- **The bytes of a line** are answered, or end the session. -/
theorem turn_run (h : t.Keeps rows) (line : List UInt8) :
    ∃ r c, turn (some line) { table := t } = (r, c) ∧
      Exchanged rows t ⟨some line, c.output⟩ r c.table := by
  have htext : ∀ answer, (⟨some line, answer⟩ : Exchange).text? = (Utf8.decode line).toOption :=
    fun _ => rfl
  cases hline : Utf8.decode line with
  | error flaw =>
    rw [hline] at htext
    exact ⟨_, _, turn_of_broken hline t, .broken ⟨rfl, htext _⟩⟩
  | ok line' =>
    rw [hline] at htext
    have hrun : text line { table := t } = (.ok line', { table := t }) := by
      rw [text, hline]
      rfl
    obtain ⟨outlook, t', printed, hrespond, ha⟩ := respond_run h line'
    refine ⟨_, _, (bind_ok hrun).trans hrespond, .answered (htext _ ▸ rfl) ?_⟩
    rw [Exchange.statement?, htext]
    exact ha

/-- **A session goes on** after an exchange, or this was the last one. -/
theorem transcript_cases (h : t.Keeps rows) (lines : List (List UInt8)) :
    ∃ e r t', Exchanged rows t e r t' ∧
      ((r ≠ .ok .proceed ∧ transcript lines t = ⟨[e], r, t'⟩) ∨
        r = .ok .proceed ∧ ∃ line rest, lines = line :: rest ∧ e.line? = some line ∧
          ∀ others, transcript (line :: others) t =
            { transcript others t' with exchanges := e :: (transcript others t').exchanges }) := by
  cases lines with
  | nil => exact ⟨⟨none, ""⟩, _, t, .finished rfl, .inl ⟨by decide, rfl⟩⟩
  | cons line rest =>
    obtain ⟨r, c, hturn, hexchanged⟩ := turn_run h line
    refine ⟨_, r, c.table, hexchanged, ?_⟩
    by_cases hr : r = .ok .proceed
    · subst hr
      exact .inr ⟨rfl, line, rest, rfl, rfl, fun _ => transcript_of_proceed hturn⟩
    · exact .inl ⟨hr, transcript_of_end hturn hr⟩

namespace Exchanged

/-- **What is left.** Only an insert that is acknowledged changes the table. -/
theorem cases_inserted (h : Exchanged rows t e r t') :
    (e.inserted? = none ∧ t' = t) ∨ ∃ row, e.inserted? = some row ∧ t'.Keeps (rows ++ [row]) := by
  cases h with
  | answered _ answered =>
    unfold Exchange.inserted?
    generalize e.statement? = s, e.answer = answer at answered ⊢
    cases answered with
    | executed keeps => exact .inr ⟨_, if_pos rfl, keeps⟩
    | refused => exact .inl ⟨if_neg (errorLine_ne_executed _), rfl⟩
    | _ => exact .inl ⟨rfl, rfl⟩
  | broken broken => exact .inl ⟨Exchange.inserted?_eq_none broken.2, rfl⟩
  | finished line => exact .inl ⟨Exchange.inserted?_eq_none (Exchange.text?_eq_none line), rfl⟩

/-- What was acknowledged is in the table. -/
theorem keeps (h : Exchanged rows t e r t') (ht : t.Keeps rows) :
    t'.Keeps (rows ++ e.inserted?.toList) := by
  rcases h.cases_inserted with ⟨hnone, rfl⟩ | ⟨row, hsome, hkeeps⟩
  · rwa [hnone, Option.toList_none, List.append_nil]
  · rwa [hsome, Option.toList_some]

/-- **An answer** is that of a sorted table. -/
theorem sorted {before : List Exchange} (h : Exchanged (inserted before) t e r t') :
    e.Sorted before := by
  have hnone : e.text? = none → e.Sorted before := by
    intro htext
    have hs := Exchange.statement?_eq_none htext
    constructor <;> simp [hs]
  cases h with
  | broken broken => exact hnone broken.2
  | finished line => exact hnone (Exchange.text?_eq_none line)
  | answered _ answered =>
    constructor
    case select =>
      intro hs
      rw [hs] at answered
      generalize e.answer = answer at answered ⊢
      cases answered with
      | select perm ordered => exact ⟨_, perm, ordered, rfl⟩
    case insert =>
      intro row hs
      rw [hs] at answered
      generalize e.answer = answer at answered ⊢
      cases answered with
      | executed => exact .inl rfl
      | refused refusal => exact .inr ⟨_, refusal, rfl⟩
    case duplicate =>
      intro row hs
      rw [hs] at answered
      generalize e.answer = answer at answered ⊢
      cases answered with
      | executed keeps =>
        refine iff_of_false (Ne.symm (errorLine_ne_executed _)) fun ⟨hmem, _⟩ => ?_
        obtain ⟨-, T, hT⟩ := keeps
        have hnodup := hT.nodup
        rw [List.map_append, List.nodup_append] at hnodup
        exact hnodup.2.2 _ hmem _ List.mem_cons_self rfl
      | refused refusal => exact refusal.errorLine_eq_iff
    case validate =>
      intro hs
      rw [hs] at answered
      generalize e.answer = answer at answered ⊢
      cases answered with
      | validate => rfl

end Exchanged

/-! ## Transcripts -/

theorem inserted_cons (e : Exchange) (exchanges : List Exchange) :
    inserted (e :: exchanges) = e.inserted?.toList ++ inserted exchanges := by
  rw [inserted, List.filterMap_cons]
  cases e.inserted? <;> rfl

end Console

namespace Session

open Console

/-- The transcript of a session on an empty file. -/
theorem transcript_new (path : String) :
    ∃ t, t.Keeps [] ∧ ∀ input,
      transcript path #[] input = .ok (Console.transcript (linesAfter [] input) t) := by
  obtain ⟨t, ht, hkeeps⟩ := Table.ofFile_keeps path .full
  refine ⟨t, hkeeps, fun input => ?_⟩
  rw [transcript, ht]
  rfl

/-- A path to no file opens a new one. -/
theorem openFile_new : Volume.openFile {} defaultPath =
    .ok (⟨.start, defaultPath⟩, #[], Volume.write {} ⟨.start, defaultPath⟩ #[]) := rfl

end Session

end PagedTable
