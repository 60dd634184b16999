import Rebuild.Artifact.ClassFile
import Rebuild.Descriptor

/-!
The symbols that the code of an artifact uses, read off its constant pool.
-/
namespace Rebuild.Artifact

/-- A symbol of another type, or the type itself. Types go by their internal names. -/
inductive Reference where
  | type (name : String)
  | field (owner name descriptor : String)
  | method (owner name descriptor : String)
  | constructor (owner descriptor : String)
  deriving DecidableEq, Repr

namespace Reference

/-- The type to which the symbol belongs. -/
def owner : Reference → String
  | type name => name
  | field owner _ _ | method owner _ _ | constructor owner _ => owner

/-- The type that a class entry stands for. Array descriptors stand for their element, if that
is an object type. -/
def classEntryType? (name : String) : Option String :=
  if name.toList.head? = some '[' then
    match FieldType.parse name with
    | .ok (.array component) => component.objectName?
    | _ => none
  else some name

/-- A method reference; the name `<init>` makes it a constructor. -/
def ofMethod (owner name descriptor : String) : Reference :=
  if name = "<init>" then constructor owner descriptor else method owner name descriptor

/-- A member reference. Members of arrays belong to no type and are left out. -/
def ofMember (pool : ConstantPool) (make : String → String → String → Reference)
    (owner nameAndType : Nat) : Except DecodeError (List Reference) := do
  match classEntryType? (← pool.className owner) with
  | none => return []
  | some owner =>
    let (name, descriptor) ← pool.nameAndType nameAndType
    return [make owner name descriptor]

/-- The object types of a method descriptor; none if it is malformed. -/
def ofMethodType (descriptor : String) : List Reference :=
  match MethodDescriptor.parse descriptor with
  | .ok d => (d.params ++ d.returns.toList).filterMap fun t => t.objectName?.map type
  | .error _ => []

/-- The references of one entry. Type entries that do not decode are left out, member entries
that do not decode are an error. -/
def ofEntry (pool : ConstantPool) (index : Nat) : Constant → Except DecodeError (List Reference)
  | .classRef _ =>
    match pool.className index with
    | .ok name => .ok ((classEntryType? name).toList.map type)
    | .error _ => .ok []
  | .fieldRef owner nameAndType => ofMember pool field owner nameAndType
  | .methodRef owner nameAndType => ofMember pool ofMethod owner nameAndType
  | .interfaceMethodRef owner nameAndType => ofMember pool ofMethod owner nameAndType
  | .methodType descriptor =>
    match pool.text descriptor with
    | .ok text => .ok (ofMethodType text)
    | .error _ => .ok []
  | _ => .ok []

def ofEntries (pool : ConstantPool) : List (Nat × Constant) → Except DecodeError (List Reference)
  | [] => .ok []
  | (index, entry) :: rest => do
    let first ← ofEntry pool index entry
    let others ← ofEntries pool rest
    return first ++ others

end Reference

/-- The symbols that an artifact uses, in the order of its pool. -/
def ClassFile.references (c : ClassFile) : Except DecodeError (List Reference) :=
  Reference.ofEntries c.pool c.pool.toList

end Rebuild.Artifact
