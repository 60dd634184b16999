/-!
UTF-8 over lists of bytes: the encoder, the strict decoder, and the decoder that replaces
what is not well formed.
-/
namespace Rebuild.Text.Utf8

/-- The character whose scalar value is `n`. -/
def char (n : Nat) : Char := Char.ofNat n

/-- The bytes of one character. -/
def encodeChar (c : Char) : List UInt8 :=
  let n := c.toNat
  if n < 0x80 then [UInt8.ofNat n]
  else if n < 0x800 then [UInt8.ofNat (0xC0 + n / 64), UInt8.ofNat (0x80 + n % 64)]
  else if n < 0x10000 then
    [UInt8.ofNat (0xE0 + n / 4096), UInt8.ofNat (0x80 + n / 64 % 64), UInt8.ofNat (0x80 + n % 64)]
  else
    [UInt8.ofNat (0xF0 + n / 262144), UInt8.ofNat (0x80 + n / 4096 % 64),
      UInt8.ofNat (0x80 + n / 64 % 64), UInt8.ofNat (0x80 + n % 64)]

def encodeChars (cs : List Char) : List UInt8 := cs.flatMap encodeChar

def encode (s : String) : List UInt8 := encodeChars s.toList

/-- A byte that may stand after the second position of a character. -/
def isContinuation (b : UInt8) : Bool := 0x80 ≤ b.toNat && b.toNat < 0xC0

/-- The second bytes allowed after a lead byte. They exclude overlong forms, surrogates
and values above the last scalar value. -/
def isSecond (lead b : UInt8) : Bool :=
  let low := if lead = 0xE0 then 0xA0 else if lead = 0xF0 then 0x90 else 0x80
  let high := if lead = 0xED then 0x9F else if lead = 0xF4 then 0x8F else 0xBF
  low ≤ b.toNat && b.toNat ≤ high

/-- The number of bytes that a lead byte announces, or zero for a byte that leads nothing. -/
def leadLength (b : UInt8) : Nat :=
  let n := b.toNat
  if n < 0x80 then 1
  else if n < 0xC2 then 0
  else if n < 0xE0 then 2
  else if n < 0xF0 then 3
  else if n < 0xF5 then 4
  else 0

/-- What stands at the front of a byte string: a character, or the longest ill-formed piece
that is replaced as one, each with the number of bytes after the lead byte that it takes. -/
inductive Front where
  | scalar (c : Char) (more : Nat)
  | illFormed (more : Nat)

/-- Reads the front of a byte string with lead byte `a`. -/
def front (a : UInt8) (rest : List UInt8) : Front :=
  match leadLength a, rest with
  | 1, _ => .scalar (char a.toNat) 0
  | 2, b :: _ =>
    if isSecond a b then .scalar (char (a.toNat % 32 * 64 + b.toNat % 64)) 1 else .illFormed 0
  | 3, b :: c :: _ =>
    if isSecond a b then
      if isContinuation c then
        .scalar (char (a.toNat % 16 * 4096 + b.toNat % 64 * 64 + c.toNat % 64)) 2
      else .illFormed 1
    else .illFormed 0
  | 3, [b] => .illFormed (if isSecond a b then 1 else 0)
  | 4, b :: c :: d :: _ =>
    if isSecond a b then
      if isContinuation c then
        if isContinuation d then
          .scalar (char (a.toNat % 8 * 262144 + b.toNat % 64 * 4096 + c.toNat % 64 * 64
            + d.toNat % 64)) 3
        else .illFormed 2
      else .illFormed 1
    else .illFormed 0
  | 4, [b, c] => .illFormed (if isSecond a b then if isContinuation c then 2 else 1 else 0)
  | 4, [b] => .illFormed (if isSecond a b then 1 else 0)
  | _, _ => .illFormed 0

/-- Decodes well-formed UTF-8; `skip` bytes of the character before are still to be passed. -/
def decodeFrom (skip : Nat) : List UInt8 → Option (List Char)
  | [] => some []
  | a :: rest =>
    match skip with
    | k + 1 => decodeFrom k rest
    | 0 => match front a rest with
      | .scalar c more => (decodeFrom more rest).map (c :: ·)
      | .illFormed _ => none

/-- Decodes well-formed UTF-8. -/
def decodeChars? (bytes : List UInt8) : Option (List Char) := decodeFrom 0 bytes

def decode? (bytes : List UInt8) : Option String := (decodeChars? bytes).map String.ofList

def replaceFrom (skip : Nat) : List UInt8 → List Char
  | [] => []
  | a :: rest =>
    match skip with
    | k + 1 => replaceFrom k rest
    | 0 => match front a rest with
      | .scalar c more => c :: replaceFrom more rest
      | .illFormed more => '\uFFFD' :: replaceFrom more rest

/-- Decodes any bytes: each longest ill-formed piece becomes the replacement character. -/
def decodeReplacing (bytes : List UInt8) : String := String.ofList (replaceFrom 0 bytes)

end Rebuild.Text.Utf8
