import PagedTable.PageId

/-!
# Pages as bytes

A page is a fixed number of bytes. `byte`, `word` and `slice` read it as if zero bytes went on for
ever behind its end; the forms with a question mark answer only within the page.
-/

namespace PagedTable

/-- The bytes of one page. -/
abbrev Page := Vector UInt8 pageSize

/-- The bytes of an encoded row. -/
abbrev Payload := Vector UInt8 rowWidth

/-- The 32-bit number with these bytes, the lowest first. -/
def wordOfBytes (b₀ b₁ b₂ b₃ : UInt8) : UInt32 :=
  UInt32.ofNat (b₀.toNat + 256 * (b₁.toNat + 256 * (b₂.toNat + 256 * b₃.toNat)))

/-- The bytes of a 32-bit number, the lowest first. -/
def wordBytes (w : UInt32) : List UInt8 :=
  [UInt8.ofNat w.toNat, UInt8.ofNat (w.toNat / 256), UInt8.ofNat (w.toNat / 65536),
    UInt8.ofNat (w.toNat / 16777216)]

@[simp] theorem length_wordBytes (w : UInt32) : (wordBytes w).length = 4 := rfl

namespace Page

/-- The page of zero bytes. -/
def zero : Page := Vector.replicate pageSize 0

/-- The page whose bytes begin at `off` in `bytes`, zero bytes beyond their end. -/
def ofBytesAt (bytes : Array UInt8) (off : Nat) : Page :=
  Vector.ofFn fun i => bytes.getD (off + i) 0

/-- The page with exactly these bytes. -/
def ofBytes? (bytes : Array UInt8) : Option Page :=
  if h : bytes.size = pageSize then some ⟨bytes, h⟩ else none

/-- A byte of the page. -/
def byte (p : Page) (i : Nat) : UInt8 := p[i]?.getD 0

/-- The `n` bytes from `off` on. -/
def slice (p : Page) (off n : Nat) : List UInt8 := (List.range n).map fun i => p.byte (off + i)

/-- The page with `bytes` written over it from `off` on. What falls behind its end is lost. -/
def overlay (p : Page) (off : Nat) : List UInt8 → Page
  | [] => p
  | b :: bs => overlay (p.setIfInBounds off b) (off + 1) bs

/-- The 32-bit number at `off`. -/
def word (p : Page) (off : Nat) : UInt32 :=
  wordOfBytes (p.byte off) (p.byte (off + 1)) (p.byte (off + 2)) (p.byte (off + 3))

/-- The encoded row at `off`. -/
def payload (p : Page) (off : Nat) : Payload := Vector.ofFn fun i => p.byte (off + i)

/-- Writes a 32-bit number at `off`. -/
def setWord (p : Page) (off : Nat) (w : UInt32) : Page := p.overlay off (wordBytes w)

/-- `n` bytes from `off` on lie in the page. -/
abbrev Within (off n : Nat) : Prop := off + n ≤ pageSize

def slice? (p : Page) (off n : Nat) : Option (List UInt8) :=
  if Within off n then some (p.slice off n) else none

def word? (p : Page) (off : Nat) : Option UInt32 :=
  if Within off 4 then some (p.word off) else none

def payload? (p : Page) (off : Nat) : Option Payload :=
  if Within off rowWidth then some (p.payload off) else none

def setWord? (p : Page) (off : Nat) (w : UInt32) : Option Page :=
  if Within off 4 then some (p.setWord off w) else none

def overlay? (p : Page) (off : Nat) (bytes : List UInt8) : Option Page :=
  if Within off bytes.length then some (p.overlay off bytes) else none

end Page

end PagedTable
