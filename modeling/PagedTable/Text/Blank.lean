/-!
# Blank characters and words

A character is blank when it has the Unicode property `White_Space`. Words are the longest runs
of other characters.
-/

namespace PagedTable

/-- The code points with the Unicode property `White_Space`, as first and last of each run. -/
def blankRuns : List (Nat × Nat) :=
  [(0x9, 0xD), (0x20, 0x20), (0x85, 0x85), (0xA0, 0xA0), (0x1680, 0x1680), (0x2000, 0x200A),
    (0x2028, 0x2029), (0x202F, 0x202F), (0x205F, 0x205F), (0x3000, 0x3000)]

/-- The character is white space. -/
def isBlank (c : Char) : Bool :=
  blankRuns.any fun (first, last) => first ≤ c.toNat ∧ c.toNat ≤ last

/-- The text without the blanks at its two ends. -/
def trim (cs : List Char) : List Char :=
  ((cs.dropWhile isBlank).reverse.dropWhile isBlank).reverse

/-- The words of a text, after the letters `begun` of a word, last letter first. -/
def wordsAfter (begun : List Char) : List Char → List (List Char)
  | [] => if begun.isEmpty then [] else [begun.reverse]
  | c :: cs =>
    if isBlank c then
      if begun.isEmpty then wordsAfter [] cs else begun.reverse :: wordsAfter [] cs
    else wordsAfter (c :: begun) cs

/-- The words of a text, in order. -/
def words (cs : List Char) : List (List Char) := wordsAfter [] cs

end PagedTable
