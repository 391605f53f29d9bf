import PagedTable.PageId
import PagedTable.Text.Utf8

/-!
# Causes of failure

Every way an operation can be refused, as a cause, and the one text each cause is shown with
(`DbError.message`).
-/

namespace PagedTable

/-- What the operating system refuses. -/
inductive IoError where
  | notFound
  | notDirectory
  | isDirectory
  /-- A path, or a name in it, is longer than the file system takes. -/
  | nameTooLong
  /-- A path holds a NUL character. -/
  | nulInPath
  /-- The medium fails to take a write. -/
  | writeFailed
  /-- The text read is not UTF-8. -/
  | notUtf8
  /-- Any other refusal, with its text. -/
  | other (text : String)
deriving DecidableEq, Repr

/-- The refusal as messages show it. -/
def IoError.message : IoError → String
  | .notFound => "No such file or directory (os error 2)"
  | .notDirectory => "Not a directory (os error 20)"
  | .isDirectory => "Is a directory (os error 21)"
  | .nameTooLong => "File name too long (os error 36)"
  | .nulInPath => "file name contained an unexpected NUL byte"
  | .writeFailed => "Input/output error (os error 5)"
  | .notUtf8 => "stream did not contain valid UTF-8"
  | .other text => text

/-- Why a file cannot be a table's. -/
inductive FileFlaw where
  /-- The length is no whole number of pages. -/
  | length (path : String) (bytes : Nat)
  /-- The file ends before the `bytes` bytes from `page` on. -/
  | shortRead (bytes : Nat) (page : PageId)
deriving DecidableEq, Repr

def FileFlaw.message : FileFlaw → String
  | .length path bytes => s!"{path} is {bytes} bytes, not a whole number of {pageSize}-byte pages"
  | .shortRead bytes page => s!"short read of {bytes} bytes at {page.label}"

/-- Why a row cannot be encoded or decoded. -/
inductive RowFlaw where
  /-- An encoded row has another length. -/
  | length (bytes : Nat)
  /-- The body holds a zero byte, which is kept for padding. -/
  | nul (id : Key)
  /-- The body is not UTF-8. -/
  | body (id : Key) (flaw : Utf8.Flaw)
deriving DecidableEq, Repr

def RowFlaw.message : RowFlaw → String
  | .length bytes => s!"expected {rowWidth} bytes, got {bytes}"
  | .nul id => s!"row {id}: body contains a NUL byte"
  | .body id flaw => s!"row {id}: {flaw.message}"

/-- The tag in the first byte of a page is no node's. -/
structure UnknownTag where
  tag : UInt8
deriving DecidableEq, Repr

/-- What a page of the tree gets wrong. -/
inductive PageFlaw where
  | tag (unknown : UnknownTag)
  /-- More cells or keys than the page has room for. -/
  | count (count capacity : Nat)
  | rootFlag (flag : Bool)
  | parent (found expected : PageId)
  | leafOverfull (cells : Nat)
  | leafUnderfull (cells : Nat)
  | leafOrder (key : Key)
  /-- A key outside the range that the separators above leave for the leaf. -/
  | leafRange (key : Key)
  | internalOverfull (keys : Nat)
  | internalUnderfull (keys : Nat)
  | separatorOrder (key : Key) (index : Nat)
  /-- A separator is not the greatest key of its child's subtree. -/
  | separatorMax (key : Key) (child : PageId) (greatest : Option Key)
  | rightEmpty (child : PageId)
deriving DecidableEq, Repr

/-- Why the pages do not form a tree. -/
inductive TreeFlaw where
  | unknownTag (unknown : UnknownTag)
  | page (page : PageId) (flaw : PageFlaw)
  /-- The greatest key of a leaf without cells was asked for. -/
  | noGreatest (leaf : PageId)
  /-- A page is not among the children of the page that it names as its parent. -/
  | orphan (page parent : PageId)
  /-- An internal node without keys has no first child. -/
  | noKeys (page : PageId)
deriving DecidableEq, Repr

/-- A key that may be missing, as messages show it. -/
def optionalKey : Option Key → String
  | some key => s!"Some({key})"
  | none => "None"

def UnknownTag.message (unknown : UnknownTag) : String := s!"unknown node type tag {unknown.tag}"

/-- A tag met while a page is loaded is reported with the words of a tree flaw before it. -/
def PageFlaw.message : PageFlaw → String
  | .tag unknown => "Tree corrupted: " ++ unknown.message
  | .count n capacity => s!"cell count {n} exceeds page capacity {capacity}"
  | .rootFlag flag => if flag then "root flag is true" else "root flag is false"
  | .parent found expected => s!"parent pointer is {found.label}, expected {expected.label}"
  | .leafOverfull cells => s!"leaf holds {cells} cells"
  | .leafUnderfull cells => s!"leaf underfull with {cells} cells"
  | .leafOrder key => s!"leaf key {key} out of order"
  | .leafRange key => s!"leaf key {key} outside parent range"
  | .internalOverfull keys => s!"internal node holds {keys} keys"
  | .internalUnderfull keys => s!"internal node underfull with {keys} keys"
  | .separatorOrder key index => s!"separator {key} at {index} out of order"
  | .separatorMax key child greatest =>
    s!"separator {key} does not match child {child.label} max " ++ optionalKey greatest
  | .rightEmpty child => s!"right child {child.label} is empty"

def TreeFlaw.message : TreeFlaw → String
  | .unknownTag unknown => unknown.message
  | .page id flaw => s!"{id.label}: " ++ flaw.message
  | .noGreatest leaf => s!"empty leaf {leaf.label} has no max key"
  | .orphan id parent => s!"{id.label} is not a child of its parent {parent.label}"
  | .noKeys id => s!"internal node {id.label} has no keys"

/-- Why a configuration is not accepted. -/
inductive ConfigFlaw where
  | leafMax (cells : Nat)
  | internalMax (keys : Nat)
deriving DecidableEq, Repr

def ConfigFlaw.message : ConfigFlaw → String
  | .leafMax cells =>
    s!"leaf_max_cells must be between {minCapacity} and {leafCapacity}, got {cells}"
  | .internalMax keys =>
    s!"internal_max_keys must be between {minCapacity} and {internalCapacity}, got {keys}"

/-- Why an operation of the database is refused. -/
inductive DbError where
  | io (cause : IoError)
  | corruptFile (flaw : FileFlaw)
  /-- A page beyond the most that a table may hold. -/
  | pageOutOfBounds (page : PageId)
  | duplicateKey (key : Key)
  | rowTooLarge (bytes : Nat)
  | invalidRow (flaw : RowFlaw)
  | treeCorrupted (flaw : TreeFlaw)
  | invalidConfig (flaw : ConfigFlaw)
deriving DecidableEq, Repr

/-- The text that an error is shown with. -/
def DbError.message : DbError → String
  | .io cause => "I/O error: " ++ cause.message
  | .corruptFile flaw => "Corrupt database file: " ++ flaw.message
  | .pageOutOfBounds page => s!"Page {page.label} out of bounds (max pages = {maxPages})"
  | .duplicateKey key => s!"Duplicate key: {key}"
  | .rowTooLarge bytes => s!"Row too large: body of {bytes} bytes exceeds {bodyWidth} bytes"
  | .invalidRow flaw => "Invalid row: " ++ flaw.message
  | .treeCorrupted flaw => "Tree corrupted: " ++ flaw.message
  | .invalidConfig flaw => "Invalid configuration: " ++ flaw.message

end PagedTable
