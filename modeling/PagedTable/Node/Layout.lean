import PagedTable.Error
import PagedTable.Page

/-!
# The layout of a node

Every node begins with a tag (one byte), a root flag (one byte), the number of its parent and a
count (four bytes each).

A leaf goes on with as many cells as it counts, each a key and an encoded row, sorted by key. An
internal node goes on with its right child and as many links as it counts, each a child and a
separator: the greatest key below that child. The right child holds every greater key.

Bytes behind the cells or links that are counted are stale: they keep what was written there last.
-/

namespace PagedTable

/-- The two kinds of nodes. -/
inductive NodeKind where
  | leaf
  | internal
deriving DecidableEq, Repr

/-- The tag of a kind of nodes. -/
def NodeKind.tag : NodeKind → UInt8
  | .leaf => 1
  | .internal => 2

/-- The kind of nodes with a tag. -/
def NodeKind.ofTag (tag : UInt8) : Except UnknownTag NodeKind :=
  if tag = 1 then .ok .leaf else if tag = 2 then .ok .internal else .error ⟨tag⟩

/-- A cell of a leaf. -/
structure Cell where
  key : Key
  value : Payload
deriving DecidableEq, Repr

/-- A link of an internal node: a child, and the greatest key below it. -/
structure Link where
  child : PageId
  key : Key
deriving DecidableEq, Repr

namespace Page

/-! ## Header -/

/-- The first byte. -/
def tag (p : Page) : UInt8 := p.byte 0

/-- The kind of node that the page's tag says it is. -/
def kind (p : Page) : Except UnknownTag NodeKind := NodeKind.ofTag p.tag

/-- The page is marked as the root. -/
def isRoot (p : Page) : Bool := p.byte 1 == 1

/-- The page that holds the parent. It means nothing on the root. -/
def parent (p : Page) : PageId := ⟨p.word 2⟩

/-- The number of cells of a leaf, and of keys of an internal node. -/
def count (p : Page) : Nat := (p.word 6).toNat

/-- The cells or keys that a page of this kind has room for. -/
def capacity : NodeKind → Nat
  | .leaf => leafCapacity
  | .internal => internalCapacity

example : capacity .leaf = 60 ∧ capacity .internal = 510 := by decide

/-- The kind of node on a page read as page `id` of the file. A count that the page has no room for
is refused, so everything that is counted lies within a page that loads. -/
def load (id : PageId) (p : Page) : Except TreeFlaw NodeKind :=
  match p.kind with
  | .error unknown => .error (.page id (.tag unknown))
  | .ok .leaf =>
    if p.count ≤ leafCapacity then .ok .leaf
    else .error (.page id (.count p.count leafCapacity))
  | .ok .internal =>
    if p.count ≤ internalCapacity then .ok .internal
    else .error (.page id (.count p.count internalCapacity))

/-! ## Cells of a leaf -/

/-- Where cell `i` begins. -/
def cellAt (i : Nat) : Nat := leafHeader + i * cellWidth

def cellKey (p : Page) (i : Nat) : Key := p.word (cellAt i)

def cellValue (p : Page) (i : Nat) : Payload := p.payload (cellAt i + 4)

def cell (p : Page) (i : Nat) : Cell := ⟨p.cellKey i, p.cellValue i⟩

/-- The cells of a leaf. -/
def cells (p : Page) : List Cell := (List.range p.count).map p.cell

/-- The keys of a leaf. -/
def cellKeys (p : Page) : List Key := (List.range p.count).map p.cellKey

def cellKey? (p : Page) (i : Nat) : Option Key := p.word? (cellAt i)

def cellValue? (p : Page) (i : Nat) : Option Payload := p.payload? (cellAt i + 4)

def cell? (p : Page) (i : Nat) : Option Cell := do
  let key ← p.cellKey? i
  let value ← p.cellValue? i
  return ⟨key, value⟩

/-! ## Links of an internal node -/

/-- Where link `i` begins. -/
def linkAt (i : Nat) : Nat := internalHeader + i * linkWidth

/-- The child that holds every key greater than the last separator. -/
def rightChild (p : Page) : PageId := ⟨p.word 10⟩

def separator (p : Page) (i : Nat) : Key := p.word (linkAt i + 4)

def link (p : Page) (i : Nat) : Link := ⟨⟨p.word (linkAt i)⟩, p.separator i⟩

/-- The links of an internal node. -/
def links (p : Page) : List Link := (List.range p.count).map p.link

/-- Child `i`. The child after the last link is the right child. -/
def child (p : Page) (i : Nat) : PageId := if i = p.count then p.rightChild else (p.link i).child

/-- The separators of an internal node. -/
def separators (p : Page) : List Key := (List.range p.count).map p.separator

/-- The children of an internal node, the right child last. -/
def children (p : Page) : List PageId := (List.range (p.count + 1)).map p.child

def separator? (p : Page) (i : Nat) : Option Key := p.word? (linkAt i + 4)

def child? (p : Page) (i : Nat) : Option PageId :=
  if i = p.count then some p.rightChild else (p.word? (linkAt i)).map PageId.mk

/-! ## Lists of what is counted -/

/-- The values of `item` at `start` and the `n - 1` places after it, if all are there. -/
def collect {α : Type} (item : Nat → Option α) (start : Nat) : Nat → Option (List α)
  | 0 => some []
  | n + 1 => do
    let a ← item start
    let rest ← collect item (start + 1) n
    return a :: rest

def cells? (p : Page) : Option (List Cell) := collect p.cell? 0 p.count

def cellKeys? (p : Page) : Option (List Key) := collect p.cellKey? 0 p.count

def separators? (p : Page) : Option (List Key) := collect p.separator? 0 p.count

def children? (p : Page) : Option (List PageId) := collect p.child? 0 (p.count + 1)

end Page

end PagedTable
