import PagedTable.Error
import PagedTable.Page

/-!
# Rows

A row is an id and a text. Encoded, it is the id and the bytes of the text, padded with zero bytes
to a fixed width; decoding takes the padding off again.
-/

namespace PagedTable

/-- A row of the table. -/
structure Row where
  id : Key
  body : String
deriving DecidableEq, Repr

namespace Row

/-- The row as it is printed. -/
def render (r : Row) : String := s!"({r.id}, {r.body})"

/-- The bytes of a row whose body fits. -/
def bytes (r : Row) : List UInt8 := wordBytes r.id ++ Utf8.encode r.body

/-- The encoded row. -/
def encode (r : Row) : Except DbError Payload :=
  let body := Utf8.encode r.body
  if bodyWidth < body.length then .error (.rowTooLarge body.length)
  else if 0 ∈ body then .error (.invalidRow (.nul r.id))
  else .ok (Vector.ofFn fun i => r.bytes.toArray.getD i 0)

/-- The bytes without the zero bytes at their end. -/
def stripZeros (bytes : List UInt8) : List UInt8 := (bytes.reverse.dropWhile (· == 0)).reverse

/-- The row that the bytes of a payload encode. -/
def decodePayload (data : Payload) : Except DbError Row :=
  let id := wordOfBytes data[0] data[1] data[2] data[3]
  match Utf8.decode (stripZeros (data.toList.drop idWidth)) with
  | .ok body => .ok ⟨id, body⟩
  | .error flaw => .error (.invalidRow (.body id flaw))

/-- The row that `data` encodes. -/
def decode (data : Array UInt8) : Except DbError Row :=
  if h : data.size = rowWidth then decodePayload ⟨data, h⟩
  else .error (.invalidRow (.length data.size))

end Row

end PagedTable
