import PagedTable.Proofs.Text.Decimal
import PagedTable.Proofs.Text.Words
import PagedTable.Statement

/-!
# The grammar of statements

A line is known by its words. The first is a keyword, and after `insert` there are a numeral and the
words of a body.

* `Statement.Denotes`: the grammar. `Statement.parse_eq_ok_iff`: a line is parsed by it.
* `Statement.insertLine`: the line of an insert. Its body is any text, of which the words count.
* `Statement.parse_grammar`: which lines are statements, and what an insert inserts.
-/

namespace PagedTable

/-- The words of a text, with a space between each and the next. -/
def spaced (text : String) : String := " ".intercalate ((words text.toList).map String.ofList)

/-- Digits and signs are no blanks. -/
theorem Decimal.Numeral.isWord {cs : List Char} {n : Nat} (h : Decimal.Numeral cs n) :
    IsWord cs := by
  have hdigit : ∀ c : Char, c.isDigit = true → isBlank c = false := fun c hc => by
    have hlow : 48 ≤ c.toNat := (Decimal.isDigit_iff.mp hc).1
    have hhigh : c.toNat ≤ 57 := (Decimal.isDigit_iff.mp hc).2
    simp only [isBlank, blankRuns, List.any_cons, List.any_nil, Bool.or_false,
      Bool.or_eq_false_iff, decide_eq_false_iff_not, not_and, Nat.not_le]
    omega
  obtain ⟨sign, digits, rfl, hsign, hne, hdigits, -⟩ := h
  refine ⟨List.append_ne_nil_of_right_ne_nil _ hne, fun c hc => ?_⟩
  rcases List.mem_append.mp hc with hc | hc
  · rcases hsign with rfl | rfl
    · cases hc
    · rw [List.mem_singleton.mp hc]
      decide
  · exact hdigit c (hdigits c hc)

namespace Statement

variable {line : List Char} {st : Statement} {row : Row}

/-- What the words of a line denote. -/
inductive Denotes : List (List Char) → Statement → Prop
  | select {rest : List (List Char)} : Denotes ("select".toList :: rest) .select
  | exit {rest : List (List Char)} : Denotes (".exit".toList :: rest) .exit
  | quit {rest : List (List Char)} : Denotes (".quit".toList :: rest) .exit
  | outline {rest : List (List Char)} : Denotes (".btree".toList :: rest) .outline
  | validate {rest : List (List Char)} : Denotes (".validate".toList :: rest) .validate
  | constants {rest : List (List Char)} : Denotes (".constants".toList :: rest) .constants
  | nuke {rest : List (List Char)} : Denotes (".nuke".toList :: rest) .nuke
  | insert {numeral : List Char} {body : List (List Char)} {id : Key}
    (numeral_of : Decimal.Numeral numeral id.toNat) :
    Denotes ("insert".toList :: numeral :: body)
      (.insert ⟨id, " ".intercalate (body.map String.ofList)⟩)

/-- The first words of the statements that have no other words. -/
def keywords : List String :=
  ["select", ".exit", ".quit", ".btree", ".validate", ".constants", ".nuke"]

/-- What follows `insert`. -/
theorem ofInsertWords_eq_ok_iff {rest : List (List Char)} :
    ofInsertWords rest = .ok st ↔ ∃ numeral body id, rest = numeral :: body ∧
      Decimal.Numeral numeral (UInt32.toNat id) ∧
      st = .insert ⟨id, " ".intercalate (body.map String.ofList)⟩ := by
  cases rest with
  | nil => exact iff_of_false nofun nofun
  | cons numeral body =>
    rw [ofInsertWords]
    constructor
    · intro h
      cases hread : Decimal.read numeral with
      | error flaw =>
        rw [hread] at h
        cases h
      | ok id =>
        rw [hread] at h
        exact ⟨numeral, body, id, rfl, Decimal.read_eq_ok_iff.mp hread, (Except.ok.inj h).symm⟩
    · rintro ⟨_, _, id, heq, hnumeral, rfl⟩
      cases heq
      rw [Decimal.read_eq_ok_iff.mpr hnumeral]

/-- **Parsing a line.** -/
theorem parse_eq_ok_iff : parse line = .ok st ↔ Denotes (words line) st := by
  constructor
  · intro h
    unfold parse at h
    split at h
    · cases h
    rename_i keyword rest hwords
    have hkeyword : ∀ {text : String}, String.ofList keyword = text → keyword = text.toList :=
      fun heq => heq ▸ String.toList_ofList.symm
    rw [hwords]
    split at h
    case h_8 heq =>
      obtain ⟨numeral, body, id, rfl, hnumeral, rfl⟩ := ofInsertWords_eq_ok_iff.mp h
      rw [hkeyword heq]
      exact .insert hnumeral
    case h_9 => split at h <;> cases h
    all_goals
      rename_i heq
      cases h
      rw [hkeyword heq]
      constructor
  · intro h
    unfold parse
    generalize words line = ws at h
    cases h with
    | insert hnumeral => exact ofInsertWords_eq_ok_iff.mpr ⟨_, _, _, rfl, hnumeral, rfl⟩
    | _ => rfl

/-! ## Lines of inserts -/

/-- The line that inserts a text with an id, which is given as a numeral. -/
def insertLine (numeral text : String) : String := "insert " ++ numeral ++ " " ++ text

theorem words_insertLine {numeral text : String} {n : Nat}
    (h : Decimal.Numeral numeral.toList n) :
    words (insertLine numeral text).toList =
      "insert".toList :: numeral.toList :: words text.toList := by
  have hinsert : IsWord "insert".toList := by simp [IsWord, isBlank, blankRuns]
  have hline : (insertLine numeral text).toList =
      "insert".toList ++ ' ' :: (numeral.toList ++ ' ' :: text.toList) := by
    rw [insertLine, String.toList_append, String.toList_append, String.toList_append]
    simp
  rw [hline, words_append_blank hinsert (by decide), words_append_blank h.isWord (by decide)]

/-- **An insert** of a numeral of its id, and a text. -/
theorem parse_insertLine {numeral text : String} {id : Key}
    (h : Decimal.Numeral numeral.toList id.toNat) :
    parse (trim (insertLine numeral text).toList) = .ok (.insert ⟨id, spaced text⟩) := by
  rw [parse_eq_ok_iff, words_trim, words_insertLine h]
  exact .insert h

example : parse "insert +007 hello   database".toList =
    .ok (.insert ⟨7, "hello database"⟩) := by rfl

/-- **A row** whose body is spaced is given back. -/
theorem parse_insertLine_row (hbody : spaced row.body = row.body) :
    parse (trim (insertLine (toString row.id) row.body).toList) = .ok (.insert row) := by
  have hnumeral : Decimal.Numeral (toString row.id).toList row.id.toNat := by
    have hdigits := Decimal.numeral_toDigits row.id.toNat 0 (.inl rfl : [] = [] ∨ [] = ['+'])
    rwa [List.replicate_zero, List.nil_append, List.nil_append, ← Nat.toList_repr] at hdigits
  rw [parse_insertLine hnumeral, hbody]

/-! ## All lines -/

/-- Words denote a statement if the first is a keyword that stands alone, or is `insert` before the
numeral of an id. -/
theorem exists_denotes_iff {ws : List (List Char)} : (∃ st, Denotes ws st) ↔
    (∃ keyword ∈ keywords, ∃ rest, ws = keyword.toList :: rest) ∨
    ∃ numeral rest n, ws = "insert".toList :: numeral :: rest ∧
      Decimal.Numeral numeral n ∧ n < UInt32.size := by
  constructor
  · rintro ⟨st, h⟩
    cases h with
    | @insert numeral body id hnumeral =>
      exact .inr ⟨numeral, body, id.toNat, rfl, hnumeral, id.toNat_lt_size⟩
    | _ => exact .inl ⟨_, by decide, _, rfl⟩
  · rintro (⟨keyword, hkeyword, rest, rfl⟩ | ⟨numeral, rest, n, rfl, hnumeral, hn⟩)
    · simp only [keywords, List.mem_cons, List.not_mem_nil, or_false] at hkeyword
      rcases hkeyword with rfl | rfl | rfl | rfl | rfl | rfl | rfl
      all_goals exact ⟨_, by constructor⟩
    · have hid : (UInt32.ofNat n).toNat = n := UInt32.toNat_ofNat_of_lt' hn
      exact ⟨_, .insert (hid.symm ▸ hnumeral)⟩

/-- **The grammar of statements.** A line that inserts a text with an id is parsed as that, whatever
zeros and sign the id begins with, and the text is spaced. So a row whose body is spaced is given
back. A line is a statement exactly if its first word is a keyword that stands alone, or is `insert`
before a numeral of 32 bits. -/
theorem parse_grammar :
    (∀ (id : Key) (zeros : Nat), ∀ sign ∈ ["", "+"], ∀ text : String,
      parse (trim (insertLine (sign ++ String.ofList (List.replicate zeros '0') ++ toString id)
        text).toList) = .ok (.insert ⟨id, spaced text⟩)) ∧
    (∀ row : Row, spaced row.body = row.body →
      parse (trim (insertLine (toString row.id) row.body).toList) = .ok (.insert row)) ∧
    ∀ line : List Char, (∃ st, parse line = .ok st) ↔
      (∃ keyword ∈ keywords, ∃ rest, words line = keyword.toList :: rest) ∨
      ∃ numeral rest n, words line = "insert".toList :: numeral :: rest ∧
        Decimal.Numeral numeral n ∧ n < UInt32.size := by
  have hdigits : ∀ id : Key, (toString id).toList = Nat.toDigits 10 id.toNat := fun id =>
    Nat.toList_repr
  have hsigned : ∀ (id : Key) (zeros : Nat), ∀ sign ∈ ["", "+"], ∀ text : String,
      parse (trim (insertLine (sign ++ String.ofList (List.replicate zeros '0') ++ toString id)
        text).toList) = .ok (.insert ⟨id, spaced text⟩) := fun id zeros sign hsign text => by
    have hsign : sign.toList = [] ∨ sign.toList = ['+'] := by
      simp only [List.mem_cons, List.not_mem_nil, or_false] at hsign
      rcases hsign with rfl | rfl
      · exact .inl rfl
      · exact .inr rfl
    refine parse_insertLine ?_
    rw [String.toList_append, String.toList_append, String.toList_ofList, hdigits,
      List.append_assoc]
    exact Decimal.numeral_toDigits id.toNat zeros hsign
  exact ⟨hsigned, fun row => parse_insertLine_row, fun line =>
    (exists_congr fun st => parse_eq_ok_iff).trans exists_denotes_iff⟩

/-- A sign, zeros and wide gaps on one line, and a row that is given back. -/
theorem parse_grammar_gaps :
    parse (trim (insertLine ("+" ++ String.ofList (List.replicate 2 '0') ++ toString (7 : Key))
      " hello   database ").toList) = .ok (.insert ⟨7, spaced " hello   database "⟩) ∧
    spaced "hello database" = "hello database" ∧
    parse (trim (insertLine (toString (7 : Key)) "hello database").toList) =
      .ok (.insert ⟨7, "hello database"⟩) := by
  have hspaced : spaced "hello database" = "hello database" := by rfl
  obtain ⟨hinsert, hrow, -⟩ := parse_grammar
  exact ⟨hinsert 7 2 "+" (by simp) _, hspaced, hrow ⟨7, "hello database"⟩ hspaced⟩

end Statement

end PagedTable
