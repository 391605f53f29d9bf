import PagedTable.Limits

/-!
# Page numbers and keys

Pages never move: a page number is also the place of the page in the file.
-/

namespace PagedTable

/-- The key of a row. -/
abbrev Key := UInt32

/-- The number of a page in its file. -/
structure PageId where
  number : UInt32
deriving DecidableEq, Repr, Inhabited

namespace PageId

/-- The page number as an index. -/
def index (id : PageId) : Nat := id.number.toNat

/-- The page at an index. Indexes of `UInt32.size` and more wrap around. -/
def ofIndex (i : Nat) : PageId := ⟨UInt32.ofNat i⟩

/-- The first byte of the page in the file. -/
def offset (id : PageId) : Nat := id.index * pageSize

/-- The page number as messages show it. -/
def label (id : PageId) : String := s!"PageId({id.number})"

theorem index_ofIndex {i : Nat} (h : i < UInt32.size) : (ofIndex i).index = i :=
  UInt32.toNat_ofNat_of_lt' h

@[simp] theorem ofIndex_index (id : PageId) : ofIndex id.index = id := by
  simp [ofIndex, index]

theorem index_inj {a b : PageId} : a.index = b.index ↔ a = b := by
  constructor
  · intro h
    rw [← ofIndex_index a, h, ofIndex_index]
  · rintro rfl
    rfl

end PageId

/-- The page that holds the root of the table's tree. The root never moves. -/
def rootPage : PageId := ⟨0⟩

end PagedTable
