import PagedTable.Disk

/-!
# The page cache

A pager keeps every page it has read or made, in one slot a page number. A page that the file does
not have yet is made on its first access, of zero bytes. Changes stay in the cache until `flush`
writes the dirty pages back.
-/

namespace PagedTable

/-- A cached page. -/
structure Frame where
  page : Page
  /-- The page differs from the file, or is not in it yet. -/
  dirty : Bool := false

/-- The page, copied into a buffer of `room` bytes, which it must fill. -/
def Frame.copy (f : Frame) (room : Nat) : Except Fault Page :=
  if room = pageSize then .ok f.page else .error .misused

/-- A cache in front of a file of pages. -/
structure Pager where
  disk : Disk
  slots : Vector (Option Frame) maxPages
  /-- Pages in use: those of the file and those up to the last one accessed. -/
  count : Nat

namespace Pager

/-- The cache that holds the first `n` pages of `window`. -/
def holding (disk : Disk) (n : Nat) (window : Array UInt8) : Pager where
  disk
  slots := Vector.ofFn fun i =>
    if i < n then some { page := Page.ofBytesAt window (i * pageSize) } else none
  count := n

/-- The cache of a file that has just been opened. All its pages are read at once. -/
def ofFile (path : String) (bytes : Array UInt8) : Except Fault Pager :=
  match Disk.ofFile path bytes with
  | .error e => .error (.refused e)
  | .ok disk =>
    let n := disk.pages.toNat
    if maxPages < n then .error (.refused (.pageOutOfBounds ⟨disk.pages - 1⟩))
    else if n = 0 then .ok (holding disk 0 #[])
    else
      match Disk.readPages ⟨0⟩ n (n * pageSize) disk with
      | (.ok window, disk) => .ok (holding disk n window)
      | (.error e, _) => .error e

/-- An action on the disk behind the cache. -/
def onDisk {α : Type} (x : Action Disk α) : Action Pager α :=
  Action.onPart Pager.disk (fun s disk => { s with disk }) x

/-- The frame in the slot of a page. -/
def frame? (s : Pager) (id : PageId) : Option Frame := s.slots[id.index]?.join

/-- Puts a frame into the slot of a page, which counts as used from then on. -/
def hold (s : Pager) (id : PageId) (f : Frame) : Pager :=
  { s with slots := s.slots.setIfInBounds id.index (some f), count := max s.count (id.index + 1) }

/-- The bytes of a page: the cached ones, else those of the file, else zero bytes of a new page,
which has to reach the file when the cache is flushed. -/
def fetch (id : PageId) : Action Pager Page := do
  if maxPages ≤ id.index then Action.refuse (.pageOutOfBounds id)
  else
    let s ← Action.state
    match s.frame? id with
    | some f => return f.page
    | none =>
      if id.number < s.disk.pages then
        let page ← onDisk (Disk.readPage id)
        Action.change fun s => s.hold id { page }
        return page
      else
        Action.replace (s.hold id { page := Page.zero, dirty := true })
        return Page.zero

/-- Changes the bytes of a page, which is dirty from then on, also when the change turns out to
break a promise. -/
def edit (id : PageId) (f : Page → Option Page) : Action Pager Unit := do
  let page ← fetch id
  match f page with
  | some page => Action.change fun s => s.hold id { page, dirty := true }
  | none =>
    Action.change fun s => s.hold id { page, dirty := true }
    Action.fail .misused

/-- A page number that is not in use. It is in use once the page is accessed. -/
def allocate : Action Pager PageId := return PageId.ofIndex (← Action.state).count

/-- Writes the page of a slot back if it is dirty. -/
def flushSlot (i : Nat) : Action Pager Unit := do
  let id := PageId.ofIndex i
  match (← Action.state).frame? id with
  | some f =>
    if f.dirty then
      onDisk (Disk.writePage id f.page)
      Action.change fun s =>
        { s with slots := s.slots.setIfInBounds i (some { f with dirty := false }) }
    else return ()
  | none => return ()

/-- Writes every dirty page back to the file, in the order of page numbers, up to the first write
that fails. -/
def flush : Action Pager Unit := do
  let s ← Action.state
  Action.require (s.count ≤ maxPages)
  (List.range s.count).forM flushSlot

/-- Pages in the cache. -/
def cached (s : Pager) : Nat := s.slots.toList.countP Option.isSome

end Pager

end PagedTable
