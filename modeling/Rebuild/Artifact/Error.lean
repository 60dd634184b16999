/-!
The ways in which an artifact, a descriptor or a signature can fail to decode.
-/
namespace Rebuild

/-- Why decoding stopped. Offsets count bytes. -/
inductive DecodeError where
  | unexpectedEnd (offset : Nat)
  | invalidMagic (magic : Nat)
  | invalidPoolIndex (index : Nat)
  | invalidPoolTag (index tag : Nat)
  | poolKindMismatch (index : Nat) (expected found : String)
  | invalidModifiedUtf8
  | invalidDescriptor (text : String)
  | invalidSignature (text : String) (offset : Nat)
  | malformedAttribute (name : String)
  | trailingBytes (count : Nat)
  deriving DecidableEq, Repr

namespace DecodeError

def hexDigit (n : Nat) : Char :=
  if n < 10 then Char.ofNat (48 + n) else Char.ofNat (87 + n)

/-- The last `width` hexadecimal digits of a number, in lower case. -/
def hexDigits : (width : Nat) → Nat → List Char
  | 0, _ => []
  | width + 1, n => hexDigits width (n / 16) ++ [hexDigit (n % 16)]

/-- The wording of each error. -/
def message : DecodeError → String
  | unexpectedEnd offset => s!"unexpected end of input at offset {offset}"
  | invalidMagic magic => "invalid classfile magic: 0x" ++ String.ofList (hexDigits 8 magic)
  | invalidPoolIndex index => s!"invalid constant pool index: {index}"
  | invalidPoolTag index tag => s!"invalid constant pool tag {tag} at index {index}"
  | poolKindMismatch index expected found =>
    s!"constant pool type mismatch at index {index}: expected {expected}, found {found}"
  | invalidModifiedUtf8 => "invalid modified UTF-8 constant"
  | invalidDescriptor text => s!"invalid descriptor: {text}"
  | invalidSignature text offset => s!"invalid signature `{text}` at offset {offset}"
  | malformedAttribute name => s!"malformed {name} attribute"
  | trailingBytes count => s!"{count} trailing bytes after end of class"

end DecodeError

end Rebuild
