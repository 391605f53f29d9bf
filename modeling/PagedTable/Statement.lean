import PagedTable.Row
import PagedTable.Text.Blank
import PagedTable.Text.Decimal

/-!
# Statements

A line of input is a statement: a keyword and, after `insert`, an id and the words of a body. Words
that follow a complete statement are not looked at.
-/

namespace PagedTable

/-- What a line asks for. -/
inductive Statement where
  | insert (row : Row)
  | select
  | outline
  | validate
  | constants
  /-- End the session. -/
  | exit
  /-- End the session and delete the file. -/
  | nuke
deriving DecidableEq, Repr

/-- Why a line is no statement. -/
inductive StatementFlaw where
  | missingId
  | invalidId (flaw : Decimal.Flaw)
  /-- A keyword that begins with a dot is unknown. -/
  | unknownMeta (line : String)
  | unknownKeyword (line : String)
deriving DecidableEq, Repr

/-- The flaw as the session shows it. -/
def StatementFlaw.message : StatementFlaw → String
  | .missingId => "insert needs an id"
  | .invalidId flaw => "invalid id: " ++ flaw.message
  | .unknownMeta line => "Unrecognized meta command '" ++ line ++ "'"
  | .unknownKeyword line => "Unrecognized keyword at start of '" ++ line ++ "'"

namespace Statement

/-- The insert statement with these words after its keyword. -/
def ofInsertWords : List (List Char) → Except StatementFlaw Statement
  | [] => .error .missingId
  | id :: body =>
    match Decimal.read id with
    | .error flaw => .error (.invalidId flaw)
    | .ok id => .ok (.insert ⟨id, String.intercalate " " (body.map String.ofList)⟩)

/-- The statement on a line, given without the blanks at its ends. -/
def parse (line : List Char) : Except StatementFlaw Statement :=
  match words line with
  | [] => .error (.unknownKeyword (String.ofList line))
  | keyword :: rest =>
    match String.ofList keyword with
    | ".exit" => .ok .exit
    | ".quit" => .ok .exit
    | ".btree" => .ok .outline
    | ".validate" => .ok .validate
    | ".constants" => .ok .constants
    | ".nuke" => .ok .nuke
    | "select" => .ok .select
    | "insert" => ofInsertWords rest
    | _ =>
      if keyword.head? = some '.' then .error (.unknownMeta (String.ofList line))
      else .error (.unknownKeyword (String.ofList line))

end Statement

end PagedTable
