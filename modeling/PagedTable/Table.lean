import PagedTable.Cursor
import PagedTable.Tree.Outline
import PagedTable.Tree.Validate

/-!
# The table

A table is the tree at page 0 of a file, with the cache of the file's pages. Changes stay in the
cache until `Table.flush`; a table that is dropped without it leaves the file as it was.
-/

namespace PagedTable

/-- An open table. -/
structure Table where
  tree : Tree
  pager : Pager

namespace Table

open PagedTable.Action

/-- The tree at `root` of a file that has just been opened. -/
def ofFileAt (root : PageId) (path : String) (bytes : Array UInt8) (config : Config) :
    Except Fault Table :=
  match Pager.ofFile path bytes with
  | .error e => .error e
  | .ok pager =>
    let tree : Tree := { root, config }
    match tree.establish pager with
    | (.ok (), pager) => .ok { tree, pager }
    | (.error e, _) => .error e

/-- The table of a file that has just been opened. -/
def ofFile (path : String) (bytes : Array UInt8) (config : Config) : Except Fault Table :=
  ofFileAt rootPage path bytes config

/-- An action on the tree. -/
def onTree {α : Type} (x : Tree → Action Pager α) : Action Table α := fun t =>
  onPart Table.pager (fun t pager => { t with pager }) (x t.tree) t

/-- An action with a cursor that starts on the first row. -/
def walking {α : Type} (x : Tree → Action Walk α) : Action Table α :=
  onTree fun tree => do
    let cursor ← Cursor.start tree
    onCursor cursor (x tree)
where
  /-- An action with a cursor that is given up afterwards. -/
  onCursor (cursor : Cursor) (x : Action Walk α) : Action Pager α := fun pager =>
    match x { cursor, pager } with
    | (r, w) => (r, w.pager)

/-- Inserts a value under a key. -/
def insert (key : Key) (value : Payload) : Action Table Unit := onTree (·.insert key value)

/-- Inserts a row under its id. -/
def insertRow (row : Row) : Action Table Unit := walking (Walk.insertRow · row)

/-- The row under a key. -/
def get (key : Key) : Action Table (Option Row) :=
  onTree fun tree => do
    match ← tree.get key with
    | some value => return some (← ofExcept (Row.decodePayload value))
    | none => return none

/-- Every entry, in the order of keys. -/
def scan : Action Table (List (Key × Payload)) := walking fun _ => Walk.entriesFrom scanLength

/-- The rows up to the first entry that is none, and the reason why it is none. -/
def leadingRows : Action Table (List Row × Option DbError) :=
  walking fun _ => Walk.rowsFrom scanLength

/-- Every row, in the order of keys. -/
def select : Action Table (List Row) := do
  match ← leadingRows with
  | (rows, none) => return rows
  | (_, some e) => refuse e

/-- Checks the tree. -/
def validate : Action Table Unit := onTree Tree.validate

/-- The outline of the tree. -/
def dump : Action Table String := onTree Tree.dump

/-- Writes every change back to the file. -/
def flush : Action Table Unit := onTree fun _ => Pager.flush

/-- Pages in use. -/
def pageCount (t : Table) : Nat := t.pager.count

/-- The content of the table's file. -/
def file (t : Table) : Array UInt8 := t.pager.disk.bytes

end Table

end PagedTable
