/-!
# Reading 32-bit decimal numbers

A number is an optional plus sign and one or more ASCII digits. Digits are read from the left,
so the first digit that takes the value past the last 32-bit number decides, whatever follows.
-/

namespace PagedTable.Decimal

/-- Why a text is no 32-bit number. -/
inductive Flaw where
  | empty
  | invalidDigit
  | tooLarge
deriving DecidableEq, Repr

/-- The flaw as messages show it. -/
def Flaw.message : Flaw → String
  | .empty => "cannot parse integer from empty string"
  | .invalidDigit => "invalid digit found in string"
  | .tooLarge => "number too large to fit in target type"

/-- The value of an ASCII digit. -/
def digit? (c : Char) : Option Nat :=
  if '0' ≤ c ∧ c ≤ '9' then some (c.toNat - '0'.toNat) else none

/-- The number whose digits so far have the value `value` and whose other digits follow. -/
def readFrom (value : Nat) : List Char → Except Flaw UInt32
  | [] => .ok (UInt32.ofNat value)
  | c :: cs =>
    match digit? c with
    | none => .error .invalidDigit
    | some d =>
      if value * 10 + d < UInt32.size then readFrom (value * 10 + d) cs else .error .tooLarge

/-- The number that a text denotes. A sign alone has no digits. -/
def read : List Char → Except Flaw UInt32
  | [] => .error .empty
  | ['+'] => .error .invalidDigit
  | '+' :: cs => readFrom 0 cs
  | cs => readFrom 0 cs

end PagedTable.Decimal
