import PagedTable.Config
import PagedTable.Node.Edit
import PagedTable.Node.Search
import PagedTable.Pager

/-!
# The tree

A tree is a root page and node capacities; its nodes are pages of a pager. The root stays on its
page: when it splits, its content moves to a new page.

Walks follow page numbers stored in pages and carry a number of steps they may take. A walk that
changes no page and passes more pages than a table may hold has passed one of them twice, so it
would never end: it ends as `Fault.endless` instead.
-/

namespace PagedTable

/-- A tree in the pages of a pager. -/
structure Tree where
  root : PageId
  config : Config

/-- Where a key is, or would be inserted. -/
structure Position where
  /-- The leaf where the search ends. -/
  page : PageId
  /-- The index of the key's cell, or of the place for one. -/
  index : Nat
  found : Bool
deriving DecidableEq, Repr

/-- The pages that a walk can pass before it must have passed one twice. -/
abbrev walkLength : Nat := maxPages + 1

namespace Pager

/-- A node: its kind and its page. -/
def node (id : PageId) : Action Pager (NodeKind × Page) := do
  let page ← fetch id
  let kind ← Action.ofExcept ((page.load id).mapError .treeCorrupted)
  return (kind, page)

end Pager

namespace Tree

open PagedTable.Action Pager

/-- Makes an empty leaf of the root page if the page is not in use. -/
def establish (t : Tree) : Action Pager Unit := do
  let s ← state
  if s.count ≤ t.root.index then edit t.root fun _ => some ((Page.empty .leaf).setRoot true)
  else return ()

/-- Descends from `id` to the leaf that covers `key`. -/
def descend (key : Key) : Nat → PageId → Action Pager Position
  | 0, _ => fail .endless
  | fuel + 1, id => do
    let (kind, page) ← node id
    match kind with
    | .leaf =>
      let (index, found) ← need (page.find? key)
      return { page := id, index, found }
    | .internal =>
      let i ← need (page.findChild? key)
      descend key fuel (← need (page.child? i))

/-- Where `key` is, or would be inserted. -/
def search (t : Tree) (key : Key) : Action Pager Position := descend key walkLength t.root

/-- The value stored under `key`. -/
def get (t : Tree) (key : Key) : Action Pager (Option Payload) := do
  let pos ← t.search key
  if pos.found then
    let (_, page) ← node pos.page
    return some (← need (page.cell? pos.index)).value
  else return none

/-- Follows right children from `id` to the last key below it. -/
def greatestFrom : Nat → PageId → Action Pager Key
  | 0, _ => fail .endless
  | fuel + 1, id => do
    let (kind, page) ← node id
    match kind with
    | .leaf =>
      if page.count = 0 then refuse (.treeCorrupted (.noGreatest id))
      else need (page.cellKey? (page.count - 1))
    | .internal => greatestFrom fuel page.rightChild

/-- The greatest key below `id`. -/
def greatest (id : PageId) : Action Pager Key := greatestFrom walkLength id

end Tree

end PagedTable
