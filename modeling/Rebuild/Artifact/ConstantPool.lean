import Rebuild.Artifact.Reader
import Rebuild.Text.ModifiedUtf8

/-!
The constant pool of an artifact: its entries, how they are decoded, and how they refer to
one another.
-/
namespace Rebuild.Artifact

/-- A constant pool entry. Indices refer to other entries of the pool. -/
inductive Constant where
  /-- The place before the first entry, and the second place of an eight-byte number. -/
  | unusable
  | utf8 (text : String)
  | integer (value : Int32)
  | float (bits : UInt32)
  | long (value : Int64)
  | double (bits : UInt64)
  | classRef (name : Nat)
  | string (text : Nat)
  | fieldRef (owner nameAndType : Nat)
  | methodRef (owner nameAndType : Nat)
  | interfaceMethodRef (owner nameAndType : Nat)
  | nameAndType (name descriptor : Nat)
  | methodHandle (kind reference : Nat)
  | methodType (descriptor : Nat)
  | dynamic (bootstrap nameAndType : Nat)
  | invokeDynamic (bootstrap nameAndType : Nat)
  | moduleRef (name : Nat)
  | packageRef (name : Nat)
  deriving DecidableEq, Repr

namespace Constant

/-- The name of the kind of an entry. -/
def kindName : Constant → String
  | unusable => "unusable"
  | utf8 _ => "Utf8"
  | integer _ => "Integer"
  | float _ => "Float"
  | long _ => "Long"
  | double _ => "Double"
  | classRef _ => "Class"
  | string _ => "String"
  | fieldRef _ _ => "Fieldref"
  | methodRef _ _ => "Methodref"
  | interfaceMethodRef _ _ => "InterfaceMethodref"
  | nameAndType _ _ => "NameAndType"
  | methodHandle _ _ => "MethodHandle"
  | methodType _ => "MethodType"
  | dynamic _ _ => "Dynamic"
  | invokeDynamic _ _ => "InvokeDynamic"
  | moduleRef _ => "Module"
  | packageRef _ => "Package"

/-- Eight-byte numbers take two places. -/
def isWide : Constant → Bool
  | long _ | double _ => true
  | _ => false

/-- Reads the entry at `index`, tag first. -/
def read (index : Nat) : Reader Constant := do
  let tag ← Reader.u1
  match tag with
  | 1 =>
    let length ← Reader.u2
    let bytes ← Reader.bytes length
    match Text.ModifiedUtf8.decode? bytes with
    | some text => return utf8 text
    | none => throw .invalidModifiedUtf8
  | 3 => return integer (UInt32.ofNat (← Reader.u4)).toInt32
  | 4 => return float (UInt32.ofNat (← Reader.u4))
  | 5 => return long (UInt64.ofNat (← Reader.u8)).toInt64
  | 6 => return double (UInt64.ofNat (← Reader.u8))
  | 7 => return classRef (← Reader.u2)
  | 8 => return string (← Reader.u2)
  | 9 => return fieldRef (← Reader.u2) (← Reader.u2)
  | 10 => return methodRef (← Reader.u2) (← Reader.u2)
  | 11 => return interfaceMethodRef (← Reader.u2) (← Reader.u2)
  | 12 => return nameAndType (← Reader.u2) (← Reader.u2)
  | 15 => return methodHandle (← Reader.u1) (← Reader.u2)
  | 16 => return methodType (← Reader.u2)
  | 17 => return dynamic (← Reader.u2) (← Reader.u2)
  | 18 => return invokeDynamic (← Reader.u2) (← Reader.u2)
  | 19 => return moduleRef (← Reader.u2)
  | 20 => return packageRef (← Reader.u2)
  | tag => throw (.invalidPoolTag index tag)

end Constant

/-- The entries of a pool by index. The entry at index zero is unusable. -/
structure ConstantPool where
  entries : List Constant
  deriving DecidableEq, Repr

namespace ConstantPool

/-- Reads the last `left` places of a pool that ends before `count`. A number that takes two
places adds the second one even when the pool ends in between. -/
def readPlaces (count : Nat) : (left : Nat) → (afterWide : Bool) → Reader (List Constant)
  | 0, false => return []
  | 0, true => return [.unusable]
  | left + 1, true => do
    let rest ← readPlaces count left false
    return .unusable :: rest
  | left + 1, false => do
    let entry ← Constant.read (count - (left + 1))
    let rest ← readPlaces count left entry.isWide
    return entry :: rest

/-- Reads a pool: a count one above the last index, then the entries. -/
def read : Reader ConstantPool := do
  let count ← Reader.u2
  let entries ← readPlaces count (count - 1) false
  return ⟨.unusable :: entries⟩

/-- The number of places, the unusable ones included. -/
def size (pool : ConstantPool) : Nat := pool.entries.length

def isEmpty (pool : ConstantPool) : Bool := pool.size ≤ 1

/-- The entries with their indices, counted from `index`. -/
def indexed : (index : Nat) → List Constant → List (Nat × Constant)
  | _, [] => []
  | index, .unusable :: rest => indexed (index + 1) rest
  | index, entry :: rest => (index, entry) :: indexed (index + 1) rest

/-- The usable entries with their indices. -/
def toList (pool : ConstantPool) : List (Nat × Constant) := indexed 0 pool.entries

def get (pool : ConstantPool) (index : Nat) : Except DecodeError Constant :=
  match pool.entries[index]? with
  | none | some .unusable => .error (.invalidPoolIndex index)
  | some entry => .ok entry

/-- The text of the entry at `index`. -/
def text (pool : ConstantPool) (index : Nat) : Except DecodeError String := do
  match ← pool.get index with
  | .utf8 text => return text
  | other => throw (.poolKindMismatch index "Utf8" other.kindName)

/-- The internal name, or array descriptor, that the entry at `index` refers to. -/
def className (pool : ConstantPool) (index : Nat) : Except DecodeError String := do
  match ← pool.get index with
  | .classRef name => pool.text name
  | other => throw (.poolKindMismatch index "Class" other.kindName)

/-- The name and the descriptor that the entry at `index` refers to. -/
def nameAndType (pool : ConstantPool) (index : Nat) :
    Except DecodeError (String × String) := do
  match ← pool.get index with
  | .nameAndType name descriptor => return (← pool.text name, ← pool.text descriptor)
  | other => throw (.poolKindMismatch index "NameAndType" other.kindName)

/-- Like `className`, where index zero stands for no class. -/
def className? (pool : ConstantPool) (index : Nat) : Except DecodeError (Option String) :=
  if index = 0 then .ok none else some <$> pool.className index

/-- Like `text`, where index zero stands for no text. -/
def text? (pool : ConstantPool) (index : Nat) : Except DecodeError (Option String) :=
  if index = 0 then .ok none else some <$> pool.text index

end ConstantPool

end Rebuild.Artifact
