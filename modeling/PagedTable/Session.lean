import PagedTable.Statement
import PagedTable.Table
import PagedTable.Volume

/-!
# Sessions

A session reads lines, prints a prompt before each, and runs the statement on it. A statement that
is refused prints why and leaves the session going. A session that ends writes the table back; one
that is ended by a line that is not text, or by a statement that deletes the file, does not.
-/

namespace PagedTable

/-- A table and what has been printed so far. -/
structure Console where
  table : Table
  /-- The printed texts, the last one first. -/
  printed : List String := []

/-- How a session goes on after a line. -/
inductive Outlook where
  | proceed
  /-- Write the table back and end. -/
  | leave
  /-- Delete the file and end. -/
  | erase
deriving DecidableEq, Repr

namespace Console

open PagedTable.Action

/-- The prompt before each line. -/
def prompt : String := "db > "

/-- All that has been printed. -/
def output (c : Console) : String := String.join c.printed.reverse

/-- Prints a text. -/
def print (text : String) : Action Console Unit :=
  change fun c => { c with printed := text :: c.printed }

/-- Prints a line. -/
def printLine (text : String) : Action Console Unit := print (text ++ "\n")

/-- An action on the table. -/
def onTable {α : Type} (x : Action Table α) : Action Console α :=
  onPart Console.table (fun c table => { c with table }) x

/-- What the statement `.constants` prints: the sizes and limits of the format. -/
def constants : List (String × Nat) :=
  [("PAGE_SIZE", pageSize), ("TABLE_MAX_PAGES", maxPages), ("ROW_SIZE", rowWidth),
    ("BODY_SIZE", bodyWidth), ("LEAF_NODE_MAX_CELLS", leafCapacity),
    ("INTERNAL_NODE_MAX_KEYS", internalCapacity)]

/-- Runs a statement. -/
def execute : Statement → Action Console Outlook
  | .insert row => do
    onTable (Table.insertRow row)
    printLine "Executed."
    return .proceed
  | .select => do
    let (rows, flaw) ← onTable Table.leadingRows
    rows.forM fun row => printLine row.render
    match flaw with
    | some e => refuse e
    | none =>
      printLine "Executed."
      return .proceed
  | .outline => do
    printLine "Tree:"
    print (← onTable Table.dump)
    return .proceed
  | .validate => do
    onTable Table.validate
    printLine "Validation succeeded."
    return .proceed
  | .constants => do
    constants.forM fun (name, value) => printLine s!"{name}: {value}"
    return .proceed
  | .exit => return .leave
  | .nuke => return .erase

/-- Answers a line. A line without words is passed over. -/
def respond (line : String) : Action Console Outlook := do
  let line := trim line.toList
  if line.isEmpty then return .proceed
  else match Statement.parse line with
    | .error flaw =>
      printLine flaw.message
      return .proceed
    | .ok statement =>
      match ← attempt (execute statement) with
      | .ok outlook => return outlook
      | .error e =>
        printLine ("Error: " ++ e.message)
        return .proceed

/-- The text of a line of input. -/
def text (line : List UInt8) : Action Console String :=
  match Utf8.decode line with
  | .ok text => return text
  | .error _ => refuse (.io .notUtf8)

/-- Answers the bytes of a line, or the end of the input. -/
def turn : Option (List UInt8) → Action Console Outlook
  | none => return .leave
  | some line => do respond (← text line)

/-- Answers lines until one ends the session. The end of the input is prompted for too. -/
def converse : List (List UInt8) → Action Console Outlook
  | [] => do
    print prompt
    turn none
  | line :: rest => do
    print prompt
    match ← turn (some line) with
    | .proceed => converse rest
    | outlook => return outlook

end Console

/-- The lines of an input, each with the newline that ends it. The bytes `begun` of the first line,
last byte first, have been read. -/
def linesAfter (begun : List UInt8) : List UInt8 → List (List UInt8)
  | [] => if begun.isEmpty then [] else [begun.reverse]
  | b :: bs =>
    if b = 0x0A then (b :: begun).reverse :: linesAfter [] bs else linesAfter (b :: begun) bs

/-- What a session comes to. -/
structure Session where
  output : String
  /-- How the session failed, if it did. -/
  failure : Option Fault := none
  volume : Volume

namespace Session

/-- A session on the file at `path`, with `input` to read. -/
def run (volume : Volume) (path : String) (input : List UInt8) : Session :=
  match volume.openFile path with
  | .error cause => { output := "", failure := some (.refused (.io cause)), volume }
  | .ok (location, bytes, volume) =>
    match Table.ofFile path bytes .full with
    | .error e => { output := "", failure := some e, volume }
    | .ok table =>
      match Console.converse (linesAfter [] input) { table } with
      | (.error e, c) => { output := c.output, failure := some e, volume }
      | (.ok .erase, c) => { output := c.output, volume := volume.erase location }
      | (.ok _, c) =>
        match Table.flush c.table with
        | (.ok (), table) => { output := c.output, volume := volume.write location table.file }
        | (.error e, table) =>
          { output := c.output, failure := some e, volume := volume.write location table.file }

end Session

end PagedTable
