import PagedTable.Error

/-!
# Node capacities

A table may be opened with smaller nodes than its pages have room for. Both capacities are bounded
from below, so that no split leaves an empty node, and from above by the room of a page.
-/

namespace PagedTable

/-- The most cells of a leaf and the most keys of an internal node. -/
structure Config where
  leafMax : Nat := leafCapacity
  internalMax : Nat := internalCapacity
  two_le_leafMax : minCapacity ≤ leafMax := by decide
  leafMax_le : leafMax ≤ leafCapacity := by decide
  two_le_internalMax : minCapacity ≤ internalMax := by decide
  internalMax_le : internalMax ≤ internalCapacity := by decide
deriving DecidableEq, Repr

namespace Config

/-- The capacities that pages have room for. -/
def full : Config := {}

/-- The configuration with another capacity of leaves. -/
def withLeafMax (c : Config) (cells : Nat) : Except DbError Config :=
  if h : minCapacity ≤ cells ∧ cells ≤ leafCapacity then
    .ok { c with leafMax := cells, two_le_leafMax := h.1, leafMax_le := h.2 }
  else .error (.invalidConfig (.leafMax cells))

/-- The configuration with another capacity of internal nodes. -/
def withInternalMax (c : Config) (keys : Nat) : Except DbError Config :=
  if h : minCapacity ≤ keys ∧ keys ≤ internalCapacity then
    .ok { c with internalMax := keys, two_le_internalMax := h.1, internalMax_le := h.2 }
  else .error (.invalidConfig (.internalMax keys))

/-- The configuration with the capacities that are given, those of a full page for the others. The
capacity of leaves is checked first. -/
def make (cells keys : Option Nat) : Except DbError Config := do
  let c ← match cells with
    | some cells => full.withLeafMax cells
    | none => .ok full
  match keys with
  | some keys => c.withInternalMax keys
  | none => .ok c

/-- The fewest cells of a leaf other than the root: the smaller half of a leaf that overflows. -/
def leafMin (c : Config) : Nat := (c.leafMax + 1) / 2

/-- The fewest keys of an internal node other than the root: the smaller half of the children of a
node that overflows has one key fewer than children. -/
def internalMin (c : Config) : Nat := (c.internalMax + 2) / 2 - 1

end Config

end PagedTable
