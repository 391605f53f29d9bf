import PagedTable.Tree.Basic

/-!
# Checking the tree

`Tree.validate` walks the whole tree. Every key below a node must lie in the range that the
separators above leave for it: greater than a lower bound and at most an upper bound.
-/

namespace PagedTable.Tree

open PagedTable.Action Pager

/-- A page of the tree is wrong. -/
def corrupt {α : Type} (id : PageId) (flaw : PageFlaw) : Action Pager α :=
  refuse (.treeCorrupted (.page id flaw))

/-- The keys that the separators above leave for a subtree. A bound may be missing. -/
structure Bounds where
  lower : Option Key := none
  upper : Option Key := none

/-- The key is greater than `k`, or there is no `k`. -/
def above (k : Option Key) (key : Key) : Bool := k.all (· < key)

/-- The bounds admit the key. -/
def Bounds.admits (b : Bounds) (key : Key) : Bool :=
  above b.lower key && b.upper.all (key ≤ ·)

/-- Checks the keys of leaf `id` that come after `prev`, and answers the last one. -/
def checkKeys (id : PageId) (b : Bounds) (prev : Option Key) :
    List Key → Action Pager (Option Key)
  | [] => return prev
  | key :: keys =>
    if !above prev key then corrupt id (.leafOrder key)
    else if !b.admits key then corrupt id (.leafRange key)
    else checkKeys id b (some key) keys

/-- Checks the subtrees of node `id` that have a separator, from index `i` on, each with `check`,
and answers the last separator. -/
def checkLinks (check : PageId → Bounds → Action Pager (Option Key)) (id : PageId) (b : Bounds) :
    Nat → Option Key → List (Key × PageId) → Action Pager (Option Key)
  | _, prev, [] => return prev
  | i, prev, (key, child) :: rest => do
    if !above prev key || !b.admits key then corrupt id (.separatorOrder key i)
    else
      let greatest ← check child { lower := prev, upper := some key }
      if greatest ≠ some key then corrupt id (.separatorMax key child greatest)
      else checkLinks check id b (i + 1) (some key) rest

/-- Checks the subtree at `id`, below `parent`, and answers its greatest key. -/
def checkNode (t : Tree) : Nat → Option PageId → PageId → Bounds → Action Pager (Option Key)
  | 0, _, _, _ => fail .endless
  | fuel + 1, parent, id, b => do
    let (kind, page) ← node id
    let root := id == t.root
    if page.isRoot != root then corrupt id (.rootFlag page.isRoot)
    else if parent.any (· ≠ page.parent) then
      corrupt id (.parent page.parent (parent.getD t.root))
    else match kind with
      | .leaf =>
        if t.config.leafMax < page.count then corrupt id (.leafOverfull page.count)
        else if !root && page.count < t.config.leafMin then corrupt id (.leafUnderfull page.count)
        else checkKeys id b none (← need page.cellKeys?)
      | .internal =>
        if t.config.internalMax < page.count then corrupt id (.internalOverfull page.count)
        else if page.count < (if root then 1 else t.config.internalMin) then
          corrupt id (.internalUnderfull page.count)
        else
          let keys ← need page.separators?
          let children ← need page.children?
          let check := checkNode t fuel (some id)
          let last ← checkLinks check id b 0 b.lower (keys.zip children)
          let right := page.rightChild
          let greatest ← check right { lower := last, upper := b.upper }
          if greatest.isNone then corrupt id (.rightEmpty right)
          else return greatest

/-- The levels that a check can go down before it must go on for ever. A path that comes to a page
for the second time has narrower bounds there; if they let it pass through all pages of the cycle
again, they do so for ever. -/
abbrev checkDepth : Nat := 3 * maxPages

/-- Checks the whole tree: key order within and across nodes, separators, parents, root flags and
fill. -/
def validate (t : Tree) : Action Pager Unit := do
  let _ ← t.checkNode checkDepth none t.root {}

end PagedTable.Tree
