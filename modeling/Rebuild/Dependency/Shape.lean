import Rebuild.Ascending
import Rebuild.Declaration.Table

/-!
What a file declares. Its shape is the set of lines that describe what other files can see of
it: the heads of its types, and their members that are neither private nor synthetic. Files that
use it need no compilation while its shape stays the same.
-/
namespace Rebuild.Dependency

open Artifact (ClassFile Member)

/-! ## Shapes -/

/-- Access flags with four hexadecimal digits. -/
def flagsText (flags : UInt16) : String :=
  "0x" ++ String.ofList (DecodeError.hexDigits 4 flags.toNat)

/-- The line of a type. The flag that only steers method calls is left out. -/
def typeLine (c : ClassFile) : String :=
  String.intercalate "|" [c.binaryName, flagsText (c.access &&& ~~~ Artifact.Access.isSuper),
    c.superClass.getD "", String.intercalate "," c.interfaces, c.signature.getD ""]

/-- The line of a member of the type with a given binary name. -/
def memberLine (owner : String) (m : Member) : String :=
  String.intercalate "|" [owner ++ "#" ++ m.name ++ m.descriptor, flagsText m.access,
    m.signature.getD "", String.intercalate "," m.thrown]

/-- Can other types use the member by name? -/
def isVisible (m : Member) : Bool :=
  !Artifact.Access.has m.access (Artifact.Access.isPrivate ||| Artifact.Access.isSynthetic)

/-- The members that other types can use. -/
def visibleMembers (c : ClassFile) : List Member :=
  c.fields.filter isVisible ++
    c.methods.filter fun m => isVisible m && !m.isStaticInitializer

def lines (c : ClassFile) : List String :=
  typeLine c :: (visibleMembers c).map (memberLine c.binaryName)

/-- The lines of all types, in ascending order. -/
def shape (classes : List ClassFile) : List String := Ascending.ofList (classes.flatMap lines)

/-! ## Declarations -/

variable {φ : Type}

def definedFields (source : Finder φ) (owner : Declaration) :
    List Member → TableM φ (List Declaration)
  | [] => return []
  | m :: rest => do
    let first ← Table.field source owner m.name
    let others ← definedFields source owner rest
    return first.toList ++ others

def definedMethod (source : Finder φ) (owner : Declaration) (m : Member) :
    TableM φ (Option Declaration) :=
  if m.isStaticInitializer then return none
  else match MethodDescriptor.parse m.descriptor with
    | .error _ => return none
    | .ok d =>
      if m.isConstructor then Table.constructor source owner d.params
      else Table.method source owner m.name d.params

def definedMethods (source : Finder φ) (owner : Declaration) :
    List Member → TableM φ (List Declaration)
  | [] => return []
  | m :: rest => do
    let first ← definedMethod source owner m
    let others ← definedMethods source owner rest
    return first.toList ++ others

/-- A type and its members. A type that the table cannot find declares nothing. -/
def definedByType (source : Finder φ) (c : ClassFile) : TableM φ (List Declaration) := do
  match ← Table.type source c.binaryName with
  | none => return []
  | some owner =>
    let fields ← definedFields source owner c.fields
    let methods ← definedMethods source owner c.methods
    return owner :: fields ++ methods

def definedByTypes (source : Finder φ) : List ClassFile → TableM φ (List Declaration)
  | [] => return []
  | c :: rest => do
    let first ← definedByType source c
    let others ← definedByTypes source rest
    return first ++ others

/-- The declarations that the artifacts of a file define. -/
def defined (source : Finder φ) (classes : List ClassFile) : TableM φ DeclarationSet := do
  return DeclarationSet.insertAll {} (← definedByTypes source classes)

end Rebuild.Dependency
