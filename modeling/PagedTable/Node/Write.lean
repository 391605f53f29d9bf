import PagedTable.Node.Edit

/-!
# Nodes as they are written

A page says four things as a node: its kind, its root flag, its parent and what it counts. `Node`
is the last three, and a `NodeWrite` is the change of one of them, of a page (`run`) and of what the
page says (`apply`).
-/

namespace PagedTable

open Page (capacity)

/-- What a node counts: the cells of a leaf, or the links of an internal node, with its right
child. -/
inductive NodeBody where
  | leaf (cells : List Cell)
  | internal (links : List Link) (right : PageId)

namespace NodeBody

def kind : NodeBody → NodeKind
  | leaf _ => .leaf
  | internal _ _ => .internal

/-- The number of cells or keys. -/
def size : NodeBody → Nat
  | leaf cells => cells.length
  | internal links _ => links.length

/-- A page has room for the cells or keys. -/
def Fits (b : NodeBody) : Prop := b.size ≤ capacity b.kind

instance (b : NodeBody) : Decidable b.Fits := inferInstanceAs (Decidable (_ ≤ _))

/-- Where the bytes behind the cells or links begin. -/
def stop : NodeBody → Nat
  | leaf cells => Page.cellAt cells.length
  | internal links _ => Page.linkAt links.length

end NodeBody

/-- Everything that a page says as a node, its kind apart. -/
structure Node where
  root : Bool
  parent : PageId
  body : NodeBody

/-- One change of a node. -/
inductive NodeWrite where
  | root (flag : Bool)
  | parent (id : PageId)
  | body (b : NodeBody)

namespace NodeWrite

/-- The change of a page. -/
def run : NodeWrite → Page → Option Page
  | root flag, p => some (p.setRoot flag)
  | parent id, p => some (p.setParent id)
  | body (.leaf cells), p => p.setCells? cells
  | body (.internal links right), p => p.setLinks? links right

/-- What the change means. -/
def apply : NodeWrite → Node → Node
  | root flag, n => { n with root := flag }
  | parent id, n => { n with parent := id }
  | body b, n => { n with body := b }

/-- A body is for a node of this kind, and there is room for it. -/
def FitsIn (kind : NodeKind) : NodeWrite → Prop
  | body b => b.kind = kind ∧ b.Fits
  | _ => True

end NodeWrite

namespace Page

/-- Writes one after the other. -/
def write? (p : Page) (ws : List NodeWrite) : Option Page := ws.foldlM (fun p w => w.run p) p

/-- What the page counts, as a node of this kind. -/
def bodyAs (p : Page) : NodeKind → NodeBody
  | .leaf => .leaf p.cells
  | .internal => .internal p.links p.rightChild

/-- What the page says, as a node of this kind. -/
def node (p : Page) (kind : NodeKind) : Node := ⟨p.isRoot, p.parent, p.bodyAs kind⟩

end Page

end PagedTable
