import PagedTable.Tree.Basic

/-!
# Inserting into the tree

A cell goes into the leaf that covers its key. A leaf that is full splits: its lower half stays, its
upper half moves to a new page, which is hooked into the parent beside it. A full parent splits in
turn, up to the root, whose content moves to a new page below it.

Before anything is written the pages that the splits will take are counted (`Tree.reserve`).
-/

namespace PagedTable.Tree

open PagedTable.Action Pager

/-- The pages that splits from `id` upwards will take, after `needed` for the levels below. -/
def splitCost (t : Tree) : Nat → PageId → Nat → Action Pager Nat
  | 0, _, _ => fail .endless
  | fuel + 1, id, needed => do
    let (_, page) ← node id
    if page.isRoot then return needed + 1
    else
      let (_, parent) ← node page.parent
      if parent.count < t.config.internalMax then return needed
      else splitCost t fuel page.parent (needed + 1)

/-- Refuses if the table cannot hold the pages that splitting `leaf` will take. -/
def reserve (t : Tree) (leaf : PageId) : Action Pager Unit := do
  let needed ← t.splitCost walkLength leaf 1
  let count := (← state).count
  if maxPages < count + needed then
    refuse (.pageOutOfBounds (PageId.ofIndex (count + needed - 1)))
  else return ()

/-- Writes the parent of a page. -/
def setParent (parent id : PageId) : Action Pager Unit := edit id fun p => some (p.setParent parent)

/-- Makes `id` the parent of the children that `page` names, if it is an internal node. -/
def adopt (id : PageId) (page : Page) : Action Pager Unit :=
  match page.kind with
  | .error unknown => refuse (.treeCorrupted (.unknownTag unknown))
  | .ok .leaf => pure ()
  | .ok .internal => do (← need page.children?).forM (setParent id)

/-- Moves the root's content to a new page, and makes the root an internal node above that page and
`right`. -/
def raiseRoot (t : Tree) (right : PageId) : Action Pager Unit := do
  let left ← allocate
  let old ← fetch t.root
  let moved := (old.setRoot false).setParent t.root
  edit left fun _ => some moved
  adopt left moved
  let key ← greatest left
  edit t.root fun _ => ((Page.empty .internal).setRoot true).setLinks? [⟨left, key⟩] right
  edit right fun p => some ((p.setRoot false).setParent t.root)

/-- Splits an internal node that is to hold `keys` and `children`: the lower half of the children,
rounded up, stays, the others move to a new page, which is the answer. The key between the halves
goes to neither. -/
def splitInternal (id parent : PageId) (keys : List Key) (children : List PageId) :
    Action Pager PageId := do
  require (keys.length + 1 = children.length ∧ 2 ≤ children.length)
  let half := (children.length + 1) / 2
  let lower := children.take half
  let upper := children.drop half
  let new ← allocate
  edit new fun _ => ((Page.empty .internal).setParent parent).setLinks?
    (List.zipWith Link.mk upper.dropLast (keys.drop half)) (upper.getLastD id)
  edit id fun p => p.setLinks? (List.zipWith Link.mk lower.dropLast keys) (lower.getLastD id)
  lower.forM (setParent id)
  upper.forM (setParent new)
  return new

/-- Hooks `right`, the new upper half of `left`, into the parent of `left`. Every round but the last
takes a new page, so the rounds are no more than the pages of a table. -/
def hook (t : Tree) : Nat → (left right : PageId) → Action Pager Unit
  | 0, _, _ => fail .endless
  | fuel + 1, left, right => do
    let (_, page) ← node left
    if page.isRoot then t.raiseRoot right
    else
      let id := page.parent
      let key ← greatest left
      let (_, parent) ← node id
      let keys ← need parent.separators?
      let children ← need parent.children?
      match children.idxOf? left with
      | none => refuse (.treeCorrupted (.orphan left id))
      | some i =>
        require (i ≤ keys.length)
        -- The separator that stood for `left` now stands for `right`.
        let keys := keys.insertIdx i key
        let children := children.insertIdx (i + 1) right
        if keys.length ≤ t.config.internalMax then
          edit id fun p => (p.insertLink? i ⟨left, key⟩).bind fun p => p.setChild? (i + 1) right
          setParent id right
        else
          let new ← splitInternal id parent.parent keys children
          hook t fuel id new

/-- Splits a full leaf around a new cell for index `i`: the lower half of the cells, rounded up,
stays. -/
def splitLeaf (t : Tree) (leaf : PageId) (i : Nat) (c : Cell) : Action Pager Unit := do
  let (_, page) ← node leaf
  let cells ← need page.cells?
  require (i ≤ cells.length)
  let cells := cells.insertIdx i c
  let half := (cells.length + 1) / 2
  let new ← allocate
  edit new fun _ => ((Page.empty .leaf).setParent page.parent).setCells? (cells.drop half)
  edit leaf fun p => p.setCells? (cells.take half)
  t.hook walkLength leaf new

/-- Inserts `value` under `key`. -/
def insert (t : Tree) (key : Key) (value : Payload) : Action Pager Unit := do
  let pos ← t.search key
  if pos.found then refuse (.duplicateKey key)
  else
    let (_, leaf) ← node pos.page
    if leaf.count < t.config.leafMax then
      edit pos.page fun p => p.insertCell? pos.index ⟨key, value⟩
    else
      t.reserve pos.page
      t.splitLeaf pos.page pos.index ⟨key, value⟩

end PagedTable.Tree
