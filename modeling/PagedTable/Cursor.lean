import PagedTable.Row
import PagedTable.Tree.Insert

/-!
# Cursors

A cursor is a place in the sequence of rows. It goes from leaf to leaf through parents: it climbs
to the first ancestor with a next child and descends to the first leaf below that child.

A cursor is told nothing about inserts. When its page has been split, or has become an internal
node, it goes on with its page number and cell number and reads the bytes of the page as they are.
-/

namespace PagedTable

/-- A place in the sequence of rows. -/
structure Cursor where
  page : PageId
  cell : Nat := 0
  /-- The cursor is behind the last row. -/
  atEnd : Bool := false
deriving DecidableEq, Repr

/-- A cursor and the pages it reads. -/
structure Walk where
  cursor : Cursor
  pager : Pager

/-- The cells that a cursor can pass before it must have passed one twice. -/
abbrev scanLength : Nat := maxPages * leafCapacity + 1

namespace Walk

open PagedTable.Action

/-- An action on the pages. -/
def onPager {α : Type} (x : Action Pager α) : Action Walk α :=
  onPart Walk.pager (fun w pager => { w with pager }) x

/-- A node, as `Pager.node` reads it. -/
def node (id : PageId) : Action Walk (NodeKind × Page) := onPager (Pager.node id)

/-- Changes the cursor. -/
def move (f : Cursor → Cursor) : Action Walk Unit :=
  change fun w => { w with cursor := f w.cursor }

/-- Descends from the cursor's page through first children to a leaf. -/
def descendFirst : Nat → Action Walk Unit
  | 0 => fail .endless
  | fuel + 1 => do
    let id := (← state).cursor.page
    let (kind, page) ← node id
    match kind with
    | .leaf => move fun c => { c with cell := 0, atEnd := page.count = 0 }
    | .internal =>
      if page.count = 0 then refuse (.treeCorrupted (.noKeys id))
      else
        let first ← need (page.child? 0)
        move fun c => { c with page := first }
        descendFirst fuel

/-- Climbs from page `id` to the first ancestor with a next child, and goes to the first leaf below
that child. Above the root there is none, and the cursor is at the end. -/
def climb : Nat → PageId → Action Walk Unit
  | 0, _ => fail .endless
  | fuel + 1, id => do
    let (_, page) ← node id
    if page.isRoot then move fun c => { c with atEnd := true }
    else
      let up := page.parent
      let (_, parent) ← node up
      match ← need (parent.indexOf? id) with
      | none => refuse (.treeCorrupted (.orphan id up))
      | some i =>
        if i = parent.count then climb fuel up
        else
          let next ← need (parent.child? (i + 1))
          move fun c => { c with page := next }
          descendFirst walkLength

/-- The key and the value under the cursor, which must not be at the end. -/
def value : Action Walk (Key × Payload) := do
  let c := (← state).cursor
  require (c.atEnd = false)
  let (_, page) ← node c.page
  let cell ← need (page.cell? c.cell)
  return (cell.key, cell.value)

/-- The row under the cursor, which must not be at the end. -/
def row : Action Walk Row := do
  let (_, value) ← value
  ofExcept (Row.decodePayload value)

/-- Moves to the next row. At the end the cursor stays. -/
def advance : Action Walk Unit := do
  let c := (← state).cursor
  if c.atEnd then return ()
  else
    let (_, page) ← node c.page
    if c.cell + 1 < page.count then move fun c => { c with cell := c.cell + 1 }
    else climb walkLength c.page

/-- Moves `n` rows on. -/
def advanceBy : Nat → Action Walk Unit
  | 0 => return ()
  | n + 1 => do
    advance
    advanceBy n

/-- The next item of the sequence of rows: the row under the cursor, which moves on, or the reason
why it is no row. A cursor that fails to move on answers the reason for that instead, and is at the
end. -/
def next : Action Walk (Option (Except DbError Row)) := do
  if (← state).cursor.atEnd then return none
  else
    let row ← attempt row
    match ← attempt advance with
    | .ok () => return some row
    | .error e =>
      move fun c => { c with atEnd := true }
      return some (.error e)

/-- The next items, at most `n`. -/
def take : Nat → Action Walk (List (Except DbError Row))
  | 0 => return []
  | n + 1 => do
    match ← next with
    | none => return []
    | some item => return item :: (← take n)

/-- The entries from the cursor on. -/
def entriesFrom : Nat → Action Walk (List (Key × Payload))
  | 0 => fail .endless
  | fuel + 1 => do
    if (← state).cursor.atEnd then return []
    else
      let entry ← value
      advance
      return entry :: (← entriesFrom fuel)

/-- The rows from the cursor on up to the first item that is none, and the reason of that item. -/
def rowsFrom : Nat → Action Walk (List Row × Option DbError)
  | 0 => fail .endless
  | fuel + 1 => do
    match ← next with
    | none => return ([], none)
    | some (.error e) => return ([], some e)
    | some (.ok row) =>
      let (rows, e) ← rowsFrom fuel
      return (row :: rows, e)

/-- Inserts a row. The tree finds its place, so the cursor stays where it is. -/
def insertRow (t : Tree) (row : Row) : Action Walk Unit := do
  let value ← ofExcept row.encode
  onPager (t.insert row.id value)

end Walk

namespace Cursor

/-- A cursor on the first row. -/
def start (t : Tree) : Action Pager Cursor := fun pager =>
  match Walk.descendFirst walkLength { cursor := { page := t.root }, pager } with
  | (.ok (), w) => (.ok w.cursor, w.pager)
  | (.error e, w) => (.error e, w.pager)

end Cursor

end PagedTable
