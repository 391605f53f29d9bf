/-!
# Sizes and limits of the format

A table lives in one file of at most `maxPages` pages of `pageSize` bytes each. A row is an id
and a body of fixed width. The capacities of nodes follow from these and from the widths of a
node's header, cells and links.
-/

namespace PagedTable

/-- Bytes of a page. -/
abbrev pageSize : Nat := 4096

/-- The most pages a table may hold. -/
abbrev maxPages : Nat := 100

/-- Bytes of an encoded row id. -/
abbrev idWidth : Nat := 4

/-- Bytes of an encoded row body; shorter bodies are padded with zero bytes. -/
abbrev bodyWidth : Nat := 60

/-- Bytes of an encoded row. -/
abbrev rowWidth : Nat := idWidth + bodyWidth

/-- The file that is opened when none is named. -/
def defaultPath : String := "db.file"

/-- The fewest cells or keys a node may be configured to hold: with one, a split could leave a
node empty. -/
abbrev minCapacity : Nat := 2

/-- Bytes before the first cell of a leaf: tag, root flag, parent and count. -/
abbrev leafHeader : Nat := 10

/-- Bytes of a leaf cell: a key and an encoded row. -/
abbrev cellWidth : Nat := 4 + rowWidth

/-- The cells a leaf page has room for. -/
abbrev leafCapacity : Nat := (pageSize - leafHeader) / cellWidth

/-- Bytes before the first link of an internal node: those of a leaf, and the right child. -/
abbrev internalHeader : Nat := 14

/-- Bytes of a link: a child and its separator key. -/
abbrev linkWidth : Nat := 8

/-- The keys an internal page has room for. -/
abbrev internalCapacity : Nat := (pageSize - internalHeader) / linkWidth

end PagedTable
