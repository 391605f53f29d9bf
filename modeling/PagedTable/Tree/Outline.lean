import PagedTable.Tree.Basic

/-!
# The outline of the tree

The outline has one line a node and one a key, in the order of keys and indented by depth. The
separator of a child follows the lines of the child.
-/

namespace PagedTable

/-- What a line of the outline says. -/
inductive OutlineItem where
  | leaf (page : PageId) (cells : Nat)
  | internal (page : PageId) (keys : Nat)
  /-- A key of a leaf. -/
  | key (key : Key)
  /-- A key of an internal node. -/
  | separator (key : Key)
deriving DecidableEq, Repr

/-- A line of the outline, for a node at `depth` levels below the root. -/
structure OutlineLine where
  depth : Nat
  item : OutlineItem
deriving DecidableEq, Repr

def OutlineItem.render : OutlineItem → String
  | .leaf page cells => s!"- leaf (page {page.number}, size {cells})"
  | .internal page keys => s!"- internal (page {page.number}, size {keys})"
  | .key k => s!"  - {k}"
  | .separator k => s!"  - key {k}"

def OutlineLine.render (l : OutlineLine) : String :=
  String.ofList (List.replicate (2 * l.depth) ' ') ++ l.item.render ++ "\n"

namespace Tree

open PagedTable.Action Pager

/-- The lines of the children that have a separator, each followed by the separator. -/
def outlineLinks (outline : PageId → Action Pager (List OutlineLine)) (depth : Nat) :
    List (Key × PageId) → Action Pager (List OutlineLine)
  | [] => return []
  | (key, child) :: rest => do
    let lines ← outline child
    return lines ++ ⟨depth, .separator key⟩ :: (← outlineLinks outline depth rest)

/-- The lines of the subtree at `id`. -/
def outlineNode : Nat → Nat → PageId → Action Pager (List OutlineLine)
  | 0, _, _ => fail .endless
  | fuel + 1, depth, id => do
    let (kind, page) ← node id
    match kind with
    | .leaf =>
      let keys ← need page.cellKeys?
      return ⟨depth, .leaf id page.count⟩ :: keys.map fun key => ⟨depth, .key key⟩
    | .internal =>
      let keys ← need page.separators?
      let children ← need page.children?
      let links ← outlineLinks (outlineNode fuel (depth + 1)) depth (keys.zip children)
      return ⟨depth, .internal id page.count⟩ :: links ++
        (← outlineNode fuel (depth + 1) page.rightChild)

/-- The outline of the tree. -/
def outline (t : Tree) : Action Pager (List OutlineLine) := outlineNode walkLength 0 t.root

/-- The outline as text. -/
def dump (t : Tree) : Action Pager String :=
  return String.join ((← t.outline).map OutlineLine.render)

end Tree

end PagedTable
