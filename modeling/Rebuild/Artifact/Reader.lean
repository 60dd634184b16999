import Rebuild.Artifact.Error

/-!
Reading big-endian numbers from the front of a byte string.
-/
namespace Rebuild.Artifact

/-- What is left to read, and how many bytes were read before. -/
structure Cursor where
  rest : List UInt8
  offset : Nat

/-- A reader takes bytes from the front and yields a value, or fails. -/
abbrev Reader := StateT Cursor (Except DecodeError)

namespace Reader

/-- A big-endian number, most significant byte first. -/
def number (bytes : List UInt8) : Nat := bytes.foldl (fun n b => n * 256 + b.toNat) 0

/-- The next `count` bytes. A failed read reports where it started. -/
def bytes (count : Nat) : Reader (List UInt8) := fun cursor =>
  if count ≤ cursor.rest.length then
    .ok (cursor.rest.take count, ⟨cursor.rest.drop count, cursor.offset + count⟩)
  else .error (.unexpectedEnd cursor.offset)

def u1 : Reader Nat := number <$> bytes 1

def u2 : Reader Nat := number <$> bytes 2

def u4 : Reader Nat := number <$> bytes 4

/-- Eight bytes, read as two words of four. -/
def u8 : Reader Nat := do
  let high ← u4
  let low ← u4
  return high * 4294967296 + low

/-- Fails with the number of bytes left, if there are any. -/
def finish : Reader Unit := fun cursor =>
  if cursor.rest = [] then .ok ((), cursor) else .error (.trailingBytes cursor.rest.length)

/-- The same reader `count` times. -/
def times (reader : Reader α) : Nat → Reader (List α)
  | 0 => return []
  | count + 1 => do
    let first ← reader
    let rest ← times reader count
    return first :: rest

/-- A count of two bytes and that many items. -/
def counted (reader : Reader α) : Reader (List α) := do
  let count ← u2
  times reader count

/-- A computation that reads nothing. -/
def lift (result : Except DecodeError α) : Reader α := fun cursor =>
  result.map fun a => (a, cursor)

/-- The reader's value, whatever it leaves unread. -/
def run (reader : Reader α) (bytes : List UInt8) : Except DecodeError α :=
  (reader ⟨bytes, 0⟩).map Prod.fst

end Reader

end Rebuild.Artifact
