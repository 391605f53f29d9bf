/-!
# Where bytes stop being UTF-8

`String.fromUTF8?` decides whether bytes are well-formed. `firstFlaw` says where bytes that are
not stop being so: at a sequence that no character starts with, or at their end in the middle
of a character.
-/

namespace PagedTable.Utf8

/-- What is wrong with bytes that are not UTF-8. -/
inductive Flaw where
  /-- The `length` bytes at `index` begin no character. -/
  | invalid (length index : Nat)
  /-- The bytes end within the character that begins at `index`. -/
  | incomplete (index : Nat)
deriving DecidableEq, Repr

/-- The flaw as messages show it. -/
def Flaw.message : Flaw → String
  | .invalid length index => s!"invalid utf-8 sequence of {length} bytes from index {index}"
  | .incomplete index => s!"incomplete utf-8 byte sequence from index {index}"

/-- The least and the greatest byte that may stand somewhere. -/
abbrev Range := UInt8 × UInt8

/-- A byte that continues a character. -/
def tail : Range := (0x80, 0xBF)

/-- The bytes that must follow a character's first byte, if it is one. The second byte is
narrowed where a longer form, a surrogate or a number past the last code point would begin. -/
def following (lead : UInt8) : Option (List Range) :=
  if lead ≤ 0x7F then some []
  else if 0xC2 ≤ lead ∧ lead ≤ 0xDF then some [tail]
  else if lead = 0xE0 then some [(0xA0, 0xBF), tail]
  else if lead = 0xED then some [(0x80, 0x9F), tail]
  else if 0xE1 ≤ lead ∧ lead ≤ 0xEF then some [tail, tail]
  else if lead = 0xF0 then some [(0x90, 0xBF), tail, tail]
  else if 0xF1 ≤ lead ∧ lead ≤ 0xF3 then some [tail, tail, tail]
  else if lead = 0xF4 then some [(0x80, 0x8F), tail, tail]
  else none

/-- Reads on after `seen` bytes of the character that begins at `start`, which owes `owed`. -/
def flawAfter (start seen : Nat) : List Range → List UInt8 → Flaw
  | [], [] => .incomplete (start + seen)
  | _ :: _, [] => .incomplete start
  | [], b :: bs =>
    match following b with
    | none => .invalid 1 (start + seen)
    | some owed => flawAfter (start + seen) 1 owed bs
  | (low, high) :: owed, b :: bs =>
    if low ≤ b ∧ b ≤ high then flawAfter start (seen + 1) owed bs else .invalid seen start

/-- Where `bytes` stop being UTF-8. Of well-formed bytes it is their end. -/
def firstFlaw (bytes : List UInt8) : Flaw := flawAfter 0 0 [] bytes

/-- The text that `bytes` encode, or where they stop encoding one. -/
def decode (bytes : List UInt8) : Except Flaw String :=
  match String.fromUTF8? ⟨bytes.toArray⟩ with
  | some text => .ok text
  | none => .error (firstFlaw bytes)

/-- The bytes of a text. -/
def encode (text : String) : List UInt8 := text.toUTF8.data.toList

end PagedTable.Utf8
