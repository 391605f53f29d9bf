import PagedTable.Action
import PagedTable.Page

/-!
# The file as a store of pages

A disk is an open file: its bytes, and the number of whole pages it is known to have. Reading and
writing go through no cache.

Numbers of pages and of accesses are 32-bit: the page count of a file is what 32 bits keep of it.
-/

namespace PagedTable

/-- An open file of pages. -/
structure Disk where
  /-- The path the file was opened with. -/
  path : String
  /-- The content of the file. -/
  bytes : Array UInt8
  /-- Whole pages in the file. -/
  pages : UInt32
  /-- Reads so far, each of any number of pages. -/
  reads : UInt32 := 0
  /-- Page writes so far. -/
  writes : UInt32 := 0
  /-- Pages that the medium fails to write. -/
  damaged : List PageId := []

/-- `bytes` with `new` written over them from `off` on. -/
def overlayArray (bytes : Array UInt8) (off : Nat) : List UInt8 → Array UInt8
  | [] => bytes
  | b :: bs => overlayArray (bytes.setIfInBounds off b) (off + 1) bs

/-- The file content after `new` is written at `off`. A file that ends before that place is first
filled up with zero bytes. -/
def splice (bytes : Array UInt8) (off : Nat) (new : List UInt8) : Array UInt8 :=
  overlayArray (bytes ++ Array.replicate (off + new.length - bytes.size) 0) off new

namespace Disk

/-- The disk of a file that has just been opened. -/
def ofFile (path : String) (bytes : Array UInt8) : Except DbError Disk :=
  if bytes.size % pageSize = 0 then
    .ok { path, bytes, pages := UInt32.ofNat (bytes.size / pageSize) }
  else .error (.corruptFile (.length path bytes.size))

/-- Reads `n` pages from `start` on at once, into a buffer of `room` bytes, which they must fill.
Only reads that succeed are counted. -/
def readPages (start : PageId) (n room : Nat) : Action Disk (Array UInt8) := do
  Action.require (room = n * pageSize)
  let d ← Action.state
  if room = 0 ∨ start.offset + room ≤ d.bytes.size then
    Action.replace { d with reads := d.reads + 1 }
    return d.bytes.extract start.offset (start.offset + room)
  else Action.refuse (.corruptFile (.shortRead room start))

/-- Reads a page. -/
def readPage (id : PageId) : Action Disk Page :=
  return Page.ofBytesAt (← readPages id 1 pageSize) 0

/-- Writes a page. The page count is 32-bit, so no page can follow the last number. -/
def writePage (id : PageId) (p : Page) : Action Disk Unit := do
  let d ← Action.state
  if id ∈ d.damaged then Action.refuse (.io .writeFailed)
  else
    Action.replace { d with bytes := splice d.bytes id.offset p.toList }
    Action.require (id.index + 1 < UInt32.size)
    Action.change fun d =>
      { d with pages := max d.pages (id.number + 1), writes := d.writes + 1 }

/-- Writes a buffer, which must be of the size of a page. -/
def writeBytes (id : PageId) (buffer : Array UInt8) : Action Disk Unit := do
  let p ← Action.need (Page.ofBytes? buffer)
  writePage id p

end Disk

end PagedTable
