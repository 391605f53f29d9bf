import PagedTable.Node.Layout

/-!
# Changing a node

Every change writes over the page in place and leaves all other bytes as they are. The forms with a
question mark answer only if what they write lies in the page and the caller's promise about
indexes and counts is kept.
-/

namespace PagedTable

/-- The bytes of a cell. -/
def Cell.bytes (c : Cell) : List UInt8 := wordBytes c.key ++ c.value.toList

/-- The bytes of a link. -/
def Link.bytes (l : Link) : List UInt8 := wordBytes l.child.number ++ wordBytes l.key

namespace Page

/-- A node without cells or keys. All its other bytes are zero. -/
def empty (kind : NodeKind) : Page := zero.setIfInBounds 0 kind.tag

def setRoot (p : Page) (root : Bool) : Page := p.setIfInBounds 1 (if root then 1 else 0)

def setParent (p : Page) (parent : PageId) : Page := p.setWord 2 parent.number

def setCount (p : Page) (n : Nat) : Page := p.setWord 6 (UInt32.ofNat n)

/-- Blanks the page, whatever it held, and makes it a node without cells or keys. -/
def init (p : Page) (kind : NodeKind) : Page :=
  let tagged : Page := (p.map fun _ => 0).setIfInBounds 0 kind.tag
  (tagged.setRoot false).setCount 0

/-! ## Leaves -/

def setCell (p : Page) (i : Nat) (c : Cell) : Page := p.overlay (cellAt i) c.bytes

/-- Moves the cells from `i` on one place up. -/
def shiftCells (p : Page) (i : Nat) : Page :=
  p.overlay (cellAt (i + 1)) (p.slice (cellAt i) ((p.count - i) * cellWidth))

/-- Inserts a cell at index `i`. -/
def insertCell? (p : Page) (i : Nat) (c : Cell) : Option Page :=
  if i ≤ p.count ∧ p.count < leafCapacity then
    some (((p.shiftCells i).setCell i c).setCount (p.count + 1))
  else none

/-- Replaces the cells of a leaf. -/
def setCells? (p : Page) (cells : List Cell) : Option Page :=
  if cells.length ≤ leafCapacity then
    some ((p.overlay leafHeader (cells.flatMap Cell.bytes)).setCount cells.length)
  else none

/-! ## Internal nodes -/

def setRightChild (p : Page) (child : PageId) : Page := p.setWord 10 child.number

def setSeparator? (p : Page) (i : Nat) (key : Key) : Option Page := p.setWord? (linkAt i + 4) key

/-- Replaces child `i`. The child after the last link is the right child. -/
def setChild? (p : Page) (i : Nat) (child : PageId) : Option Page :=
  if i = p.count then some (p.setRightChild child) else p.setWord? (linkAt i) child.number

def setLink (p : Page) (i : Nat) (l : Link) : Page := p.overlay (linkAt i) l.bytes

/-- Moves the links from `i` on one place up. -/
def shiftLinks (p : Page) (i : Nat) : Page :=
  p.overlay (linkAt (i + 1)) (p.slice (linkAt i) ((p.count - i) * linkWidth))

/-- Inserts a link at index `i`. The right child stays. -/
def insertLink? (p : Page) (i : Nat) (l : Link) : Option Page :=
  if i ≤ p.count ∧ p.count < internalCapacity then
    some (((p.shiftLinks i).setLink i l).setCount (p.count + 1))
  else none

/-- Replaces the links and the right child of an internal node. -/
def setLinks? (p : Page) (links : List Link) (right : PageId) : Option Page :=
  if links.length ≤ internalCapacity then
    some (((p.overlay internalHeader (links.flatMap Link.bytes)).setCount
      links.length).setRightChild right)
  else none

end Page

end PagedTable
