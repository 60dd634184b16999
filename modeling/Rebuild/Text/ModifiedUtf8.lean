import Rebuild.Text.Utf8

/-!
The text encoding of constant pools. It writes UTF-16 units, each on its own as one to three
bytes, so that a character beyond the basic plane takes two three-byte forms, and it writes NUL
in two bytes. Plain UTF-8 without NUL is read too.
-/
namespace Rebuild.Text.ModifiedUtf8

/-- The UTF-16 units of a character. -/
def unitsOfChar (c : Char) : List Nat :=
  let n := c.toNat
  if n < 0x10000 then [n]
  else [0xD800 + (n - 0x10000) / 1024, 0xDC00 + (n - 0x10000) % 1024]

def unitsOfChars (cs : List Char) : List Nat := cs.flatMap unitsOfChar

/-- The characters that UTF-16 units stand for; a surrogate without its partner has none. -/
def charsOfUnits : List Nat → Option (List Char)
  | [] => some []
  | u :: rest =>
    if 0xD800 ≤ u ∧ u < 0xDC00 then
      match rest with
      | v :: rest =>
        if 0xDC00 ≤ v ∧ v < 0xE000 then
          (charsOfUnits rest).map
            (Char.ofNat (0x10000 + (u - 0xD800) * 1024 + (v - 0xDC00)) :: ·)
        else none
      | [] => none
    else if 0xDC00 ≤ u ∧ u < 0xE000 then none
    else (charsOfUnits rest).map (Char.ofNat u :: ·)

/-- The bytes of one UTF-16 unit. Zero takes the two-byte form. -/
def encodeUnit (u : Nat) : List UInt8 :=
  if u ≠ 0 ∧ u < 0x80 then [UInt8.ofNat u]
  else if u < 0x800 then [UInt8.ofNat (0xC0 + u / 64), UInt8.ofNat (0x80 + u % 64)]
  else
    [UInt8.ofNat (0xE0 + u / 4096), UInt8.ofNat (0x80 + u / 64 % 64), UInt8.ofNat (0x80 + u % 64)]

def encode (s : String) : List UInt8 := (unitsOfChars s.toList).flatMap encodeUnit

/-- Reads UTF-16 units in one, two or three bytes each. A zero byte stands for nothing, and
longer forms than needed are accepted. -/
def decodeUnits : List UInt8 → Option (List Nat)
  | [] => some []
  | a :: rest =>
    if a.toNat < 0x80 then
      if a = 0 then none else (decodeUnits rest).map (a.toNat :: ·)
    else if 0xC0 ≤ a.toNat ∧ a.toNat < 0xE0 then
      match rest with
      | b :: rest =>
        if Utf8.isContinuation b then
          (decodeUnits rest).map ((a.toNat % 32 * 64 + b.toNat % 64) :: ·)
        else none
      | [] => none
    else if 0xE0 ≤ a.toNat ∧ a.toNat < 0xF0 then
      match rest with
      | b :: c :: rest =>
        if Utf8.isContinuation b && Utf8.isContinuation c then
          (decodeUnits rest).map
            ((a.toNat % 16 * 4096 + b.toNat % 64 * 64 + c.toNat % 64) :: ·)
        else none
      | _ => none
    else none

/-- Reads bytes through their UTF-16 units. -/
def decodeByUnits (bytes : List UInt8) : Option (List Char) :=
  (decodeUnits bytes).bind charsOfUnits

/-- Well-formed UTF-8 without NUL is taken as it is, everything else is read by units. -/
def decode? (bytes : List UInt8) : Option String :=
  match Utf8.decodeChars? bytes with
  | some cs =>
    if '\x00' ∈ cs then (decodeByUnits bytes).map String.ofList else some (String.ofList cs)
  | none => (decodeByUnits bytes).map String.ofList

end Rebuild.Text.ModifiedUtf8
