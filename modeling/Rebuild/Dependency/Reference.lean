import Rebuild.Artifact.Reference
import Rebuild.Declaration.Table
import Rebuild.Signature.Parser

/-!
The declarations that an artifact refers to. They are read off its constant pool, which has the
symbols that its code uses, and off its structure: supertypes, bounds, the types of members and
the types they throw. An artifact does not refer to itself, nor to the types nested in its
outermost type.
-/
namespace Rebuild.Dependency

open Artifact (ClassFile Member Reference)

variable {φ : Type}

/-- The results of a step for each element, those that gave nothing left out. -/
def gather (f : α → TableM φ (Option Declaration)) : List α → TableM φ (List Declaration)
  | [] => return []
  | a :: rest => do
    let first ← f a
    let others ← gather f rest
    return first.toList ++ others

/-! ## The constant pool -/

/-- The declaration that a symbol of the constant pool stands for. -/
def symbolDeclaration (source : Finder φ) : Reference → TableM φ (Option Declaration)
  | .type name => Table.internalType source name
  | .field owner name _ => do
    match ← Table.internalType source owner with
    | some owner => Table.field source owner name
    | none => return none
  | .method owner name descriptor =>
    match MethodDescriptor.parse descriptor with
    | .error _ => return none
    | .ok d => do
      match ← Table.internalType source owner with
      | some owner => Table.method source owner name d.params
      | none => return none
  | .constructor owner descriptor =>
    match MethodDescriptor.parse descriptor with
    | .error _ => return none
    | .ok d => do
      match ← Table.internalType source owner with
      | some owner => Table.constructor source owner d.params
      | none => return none

/-- The declarations of the symbols in the constant pool that belong to other types. A pool that
is broken gives none at all. -/
def poolDeclarations (source : Finder φ) (c : ClassFile) : TableM φ (List Declaration) :=
  match c.references with
  | .error _ => return []
  | .ok references =>
    gather (symbolDeclaration source) (references.filter fun r => !c.isSelfOrNested r.owner)

/-! ## The structure -/

/-- The bounds of type parameters. -/
def boundDeclarations (source : Finder φ) (scope : TypeScope) (params : List TypeParameter) :
    TableM φ (List Declaration) :=
  gather (Table.referenceType source scope) (params.flatMap TypeParameter.bounds)

/-- Supertypes with the scope of the members. A malformed class signature counts as none. -/
def headDeclarations (source : Finder φ) (c : ClassFile) (this : Option Declaration) :
    TableM φ (List Declaration × TypeScope) := do
  let plain : TypeScope := match this with
    | some this => .ofOwner this []
    | none => {}
  match c.signature.map ClassSignature.parse with
  | some (.ok s) =>
    let scope : TypeScope := match this with
      | some this => .ofOwner this (s.typeParams.map TypeParameter.name)
      | none => {}
    let bounds ← boundDeclarations source scope s.typeParams
    let supertypes ← gather (Table.classType source scope) (s.superClass :: s.interfaces)
    return (bounds ++ supertypes, scope)
  | _ =>
    let supertypes ← gather (Table.internalType source) c.supertypes
    return (supertypes, plain)

/-- The type of a field. A malformed field gives nothing. -/
def fieldDeclaration (source : Finder φ) (scope : TypeScope) (m : Member) :
    TableM φ (Option Declaration) :=
  match m.signature with
  | some text =>
    match ReferenceType.parse text with
    | .ok type => Table.referenceType source scope type
    | .error _ => return none
  | none =>
    match FieldType.parse m.descriptor with
    | .ok type => Table.fieldType source type
    | .error _ => return none

/-- The declaration of a method or constructor itself. -/
def ownDeclaration (source : Finder φ) (this : Option Declaration) (m : Member)
    (params : List FieldType) : TableM φ (Option Declaration) :=
  match this with
  | none => return none
  | some this =>
    if m.isConstructor then Table.constructor source this params
    else Table.method source this m.name params

/-- The types in the signature of a method, which sees its own type parameters. -/
def signatureDeclarations (source : Finder φ) (own : Option Declaration) (scope : TypeScope)
    (s : MethodSignature) : TableM φ (List Declaration) := do
  let scope := match own with
    | some own => scope.push own (s.typeParams.map TypeParameter.name)
    | none => scope
  let bounds ← boundDeclarations source scope s.typeParams
  let types ← gather (Table.valueType source scope) (s.params ++ s.returns.toList)
  let thrown ← gather (Table.referenceType source scope) s.thrown
  return bounds ++ types ++ thrown

/-- The types of a method: those it throws, then those of its signature or, without one, of its
descriptor. A malformed descriptor gives nothing, a malformed signature nothing more. -/
def methodDeclarations (source : Finder φ) (this : Option Declaration) (scope : TypeScope)
    (m : Member) : TableM φ (List Declaration) :=
  if m.isStaticInitializer then return []
  else match MethodDescriptor.parse m.descriptor with
    | .error _ => return []
    | .ok d => do
      let thrown ← gather (Table.internalType source) m.thrown
      match m.signature.map MethodSignature.parse with
      | none =>
        let types ← gather (Table.fieldType source) (d.params ++ d.returns.toList)
        return thrown ++ types
      | some (.error _) => return thrown
      | some (.ok s) =>
        let own ← ownDeclaration source this m d.params
        let types ← signatureDeclarations source own scope s
        return thrown ++ types

def methodsDeclarations (source : Finder φ) (this : Option Declaration) (scope : TypeScope) :
    List Member → TableM φ (List Declaration)
  | [] => return []
  | m :: rest => do
    let first ← methodDeclarations source this scope m
    let others ← methodsDeclarations source this scope rest
    return first ++ others

/-- The declarations that the structure of an artifact mentions. -/
def structureDeclarations (source : Finder φ) (c : ClassFile) :
    TableM φ (List Declaration) := do
  let this ← Table.type source c.binaryName
  let (head, scope) ← headDeclarations source c this
  let fields ← gather (fieldDeclaration source scope) c.fields
  let methods ← methodsDeclarations source this scope c.methods
  return head ++ fields ++ methods

/-! ## References -/

/-- Is this a type that the artifact defines itself? -/
def isOwnType (c : ClassFile) (d : Declaration) : Bool :=
  d.isType && c.isSelfOrNested (Name.toInternal d.id)

/-- What one declaration contributes: the types it is made from, and itself. -/
def contribution (c : ClassFile) (d : Declaration) : List Declaration :=
  (d.componentTypes ++ [d]).filter fun part => !isOwnType c part

/-- The declarations that an artifact refers to. -/
def references (source : Finder φ) (c : ClassFile) : TableM φ DeclarationSet := do
  let pool ← poolDeclarations source c
  let structural ← structureDeclarations source c
  return DeclarationSet.insertAll {} ((pool ++ structural).flatMap (contribution c))

/-- The declarations that encoded artifacts refer to; one that does not decode refers to none. -/
def artifactReferences (source : Finder φ) (bytes : List UInt8) : TableM φ DeclarationSet :=
  match ClassFile.decode bytes with
  | .ok c => references source c
  | .error _ => return {}

end Rebuild.Dependency
