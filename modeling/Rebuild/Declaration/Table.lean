import Rebuild.Artifact.ClassFile
import Rebuild.Declaration.Scope
import Rebuild.Finder
import Rebuild.Text.Split

/-!
The table of declarations. Looking a declaration up makes it if need be, and an identifier once
bound keeps its declaration. Types are made only if their artifact can be found; what is found
is remembered, and what is not found too.
-/
namespace Rebuild

open Artifact (ClassFile Member)

structure Table (φ : Type) where
  /-- The declarations by their identifiers. -/
  bound : Dict String Declaration := .empty
  /-- The artifacts looked for, by the binary names of the types. -/
  classes : Dict String (Option ClassFile) := .empty
  /-- The array types made so far, by the serial numbers of their components. -/
  arrays : Dict Nat Declaration := .empty
  /-- The serial number of the next declaration. -/
  nextSerial : Nat := 0
  /-- The state of the finder. -/
  finder : φ

/-- Looking up in a table, which may add to it. -/
abbrev TableM (φ : Type) := StateM (Table φ)

namespace Table

variable {φ : Type}

/-- The declaration bound to an identifier. -/
def get? (t : Table φ) (id : String) : Option Declaration := t.bound.get? id

def size (t : Table φ) : Nat := t.bound.size

def isEmpty (t : Table φ) : Bool := t.bound.isEmpty

/-- Forgets all declarations and artifacts. Declarations in use elsewhere keep their arrays. -/
def invalidate (t : Table φ) : Table φ := { t with bound := .empty, classes := .empty }

/-- Forgets the artifacts of a type and of the types nested in it, found or not. -/
def evict (t : Table φ) (binary : String) : Table φ :=
  { t with classes := t.classes.filterKeys fun name => !Name.isSelfOrNested binary name }

/-- The array type made from this very declaration. -/
def arrayOf? (t : Table φ) (component : Declaration) : Option Declaration :=
  t.arrays.get? component.serial

/-- The declaration bound to an identifier; if there is none, the one that `make` makes of the
next serial number. -/
def intern (id : String) (make : Nat → Declaration) : TableM φ Declaration := do
  let t ← get
  match t.bound.get? id with
  | some d => return d
  | none =>
    let d := make t.nextSerial
    set { t with bound := t.bound.put id d, nextSerial := t.nextSerial + 1 }
    return d

/-- The artifact of a type. The finder is asked once, until the type is evicted. -/
def classFile (source : Finder φ) (binary : String) : TableM φ (Option ClassFile) := do
  let t ← get
  match t.classes.get? binary with
  | some known => return known
  | none =>
    let (bytes, finder) := source.find (Name.toInternal binary) t.finder
    let loaded := bytes.bind fun b => (ClassFile.decode b).toOption
    set { t with classes := t.classes.put binary loaded, finder }
    return loaded

/-! ## Packages and types -/

/-- The packages around and at a name, outermost first, as identifiers with last segments. An
identifier ends `stop` characters into the name; a dot is counted in front of a segment unless
nothing stands before it. -/
def packagePrefixes (qualified : String) : (stop : Nat) → List String → List (String × String)
  | _, [] => []
  | stop, segment :: rest =>
    let stop := if stop = 0 then segment.length else stop + 1 + segment.length
    (String.ofList (qualified.toList.take stop), segment) :: packagePrefixes qualified stop rest

def packagesIn (owner : Declaration) : List (String × String) → TableM φ Declaration
  | [] => return owner
  | (id, name) :: rest => do
    let d ← intern id fun serial => { serial, id, kind := .package, name, owner := some owner }
    packagesIn d rest

/-- A package. The packages around it are made first. -/
def package (qualified : String) : TableM φ Declaration := do
  let unnamed ← intern "" fun serial =>
    { serial, id := "", kind := .package, name := "", owner := none }
  if qualified = "" then return unnamed
  packagesIn unnamed (packagePrefixes qualified 0 (Text.split '.' qualified))

/-- A type, given with the types around it, innermost first. It is owned by the next of them
that exists, or by its package. -/
def typeWithin (source : Finder φ) : List String → TableM φ (Option Declaration)
  | [] => return none
  | binary :: around => do
    match ((← get).get? binary).filter Declaration.isType with
    | some d => return (← classFile source binary).map fun _ => d
    | none =>
      match ← classFile source binary with
      | none => return none
      | some c =>
        let owner ← match ← typeWithin source around with
          | some d => pure d
          | none => package (Name.packageOf binary)
        some <$> intern binary fun serial => {
          serial, id := binary, kind := .type, name := Name.simple binary
          owner := some owner, modifiers := c.declaredAccess }

/-- The type with a binary name, if its artifact can be found. -/
def type (source : Finder φ) (binary : String) : TableM φ (Option Declaration) :=
  typeWithin source (Name.enclosing binary)

/-- The type with an internal name. -/
def internalType (source : Finder φ) (internal : String) : TableM φ (Option Declaration) :=
  type source (Name.toBinary internal)

/-! ## Members -/

/-- An upper bound on the number of types that a search through supertypes can meet: the start,
and the supertypes that artifacts name, each of which takes bytes of its own. -/
def searchBound (source : Finder φ) (t : Table φ) : Nat :=
  1 + source.volume t.finder
    + (t.classes.values.map fun known => match known with
      | some c => c.supertypes.length
      | none => 0).foldr (· + ·) 0

/-- Breadth-first search for a member through at most `n` types. -/
def searchMember (source : Finder φ) (inherited : Bool) (select : ClassFile → Option Member) :
    (n : Nat) → List String → List String → TableM φ (Option (Declaration × Member))
  | 0, _, _ => return none
  | n + 1, queue, seen =>
    match queue.dropWhile (· ∈ seen) with
    | [] => return none
    | binary :: rest => do
      match ← classFile source binary with
      | none => searchMember source inherited select n rest (binary :: seen)
      | some c =>
        match select c with
        | some m => return (← type source binary).map fun owner => (owner, m)
        | none =>
          if inherited then
            searchMember source inherited select n (rest ++ c.supertypes.map Name.toBinary)
              (binary :: seen)
          else return none

/-- The first member that `select` selects, in the type itself or, where members are inherited,
in its supertypes in breadth-first order; and the type that declares it. -/
def findMember (source : Finder φ) (start : Declaration) (inherited : Bool)
    (select : ClassFile → Option Member) : TableM φ (Option (Declaration × Member)) := do
  let bound := (← get).searchBound source
  searchMember source inherited select bound [start.id] []

/-- The field of a type or its supertypes with a given name. -/
def field (source : Finder φ) (owner : Declaration) (name : String) :
    TableM φ (Option Declaration) := do
  match ← findMember source owner true fun c => c.fields.find? fun f => f.name == name with
  | none => return none
  | some (declaring, m) =>
    let id := declaring.id ++ "#" ++ name
    some <$> intern id fun serial => {
      serial, id, kind := .field, name, owner := some declaring, modifiers := m.access }

/-- Is this the method with a given name and given erased parameter types? -/
def isMethod (name : String) (params : List FieldType) (m : Member) : Bool :=
  m.name == name && match MethodDescriptor.parse m.descriptor with
    | .ok d => d.params == params
    | .error _ => false

def executable (source : Finder φ) (owner : Declaration) (name : String)
    (params : List FieldType) (kind : DeclarationKind) : TableM φ (Option Declaration) := do
  let select (c : ClassFile) := c.methods.find? (isMethod name params)
  match ← findMember source owner (kind == .method) select with
  | none => return none
  | some (declaring, m) =>
    let shown := params.map FieldType.display
    let id := declaring.id ++ "#" ++ name ++ "(" ++ String.intercalate "," shown ++ ")"
    some <$> intern id fun serial => {
      serial, id, kind, name, owner := some declaring, modifiers := m.access, params := shown }

/-- The method of a type or its supertypes with given erased parameter types. -/
def method (source : Finder φ) (owner : Declaration) (name : String) (params : List FieldType) :
    TableM φ (Option Declaration) :=
  executable source owner name params .method

/-- The constructor of a type with given erased parameter types. It is not inherited. -/
def constructor (source : Finder φ) (owner : Declaration) (params : List FieldType) :
    TableM φ (Option Declaration) :=
  executable source owner "<init>" params .constructor

/-- The member of a type that a name and a descriptor stand for. -/
def member (source : Finder φ) (owner name descriptor : String) :
    TableM φ (Option Declaration) := do
  match ← type source owner with
  | none => return none
  | some owner =>
    if descriptor.toList.head? = some '(' then
      match MethodDescriptor.parse descriptor with
      | .error _ => return none
      | .ok d =>
        if name = "<init>" then constructor source owner d.params
        else method source owner name d.params
    else field source owner name

/-! ## Variables and types made from others -/

def typeVariable (owner : Declaration) (name : String) : TableM φ Declaration :=
  let id := owner.id ++ "!" ++ name
  intern id fun serial => { serial, id, kind := .typeVariable, name, owner := some owner }

def localVariable (method : Declaration) (name : String) (slot : Nat) : TableM φ Declaration :=
  let id := method.id ++ "@" ++ name ++ ":" ++ toString slot
  intern id fun serial => { serial, id, kind := .localVariable, name, owner := some method }

/-- The array type with a given component, which remembers it. -/
def array (component : Declaration) : TableM φ Declaration := do
  match (← get).arrayOf? component with
  | some d => return d
  | none =>
    let id := component.id ++ "[]"
    let d ← intern id fun serial => {
      serial, id, kind := .array, name := component.name ++ "[]", owner := some component }
    modify fun t => { t with arrays := t.arrays.put component.serial d }
    return d

/-- A type with arguments; without any it is the type itself. -/
def parameterized (base : Declaration) (args : List (TypeArgument Declaration)) :
    TableM φ Declaration :=
  if args.isEmpty then return base
  else
    let id := base.id ++ "<" ++ String.intercalate "," (args.map TypeArgument.fragment) ++ ">"
    intern id fun serial => {
      serial, id, kind := .parameterized, name := base.name, owner := some base, args }

/-! ## Descriptors and signatures -/

/-- The declaration of an erased type. Base types and their arrays have none. -/
def fieldType (source : Finder φ) : FieldType → TableM φ (Option Declaration)
  | .base _ => return none
  | .object internal => internalType source internal
  | .array component => do
    match ← fieldType source component with
    | some d => some <$> array d
    | none => return none

mutual

/-- The declaration of a generic type. Arguments that cannot be resolved become `?`. -/
def referenceType (source : Finder φ) (scope : TypeScope) :
    ReferenceType → TableM φ (Option Declaration)
  | .typeVariable name =>
    match scope.owner? name with
    | some owner => some <$> typeVariable owner name
    | none => return none
  | .array component => do
    match ← valueType source scope component with
    | some d => some <$> array d
    | none => return none
  | .ofClass type => classType source scope type

def classType (source : Finder φ) (scope : TypeScope) :
    ClassType ReferenceType → TableM φ (Option Declaration)
  | ⟨outer, nested⟩ => do
    match ← internalType source (ClassType.internalName ⟨outer, nested⟩) with
    | none => return none
    | some base =>
      let first ← segmentArguments source scope outer
      let others ← segmentsArguments source scope nested
      some <$> parameterized base (first ++ others)

def segmentArguments (source : Finder φ) (scope : TypeScope) :
    ClassSegment ReferenceType → TableM φ (List (TypeArgument Declaration))
  | ⟨_, args⟩ => arguments source scope args

def segmentsArguments (source : Finder φ) (scope : TypeScope) :
    List (ClassSegment ReferenceType) → TableM φ (List (TypeArgument Declaration))
  | [] => return []
  | segment :: rest => do
    let first ← segmentArguments source scope segment
    let others ← segmentsArguments source scope rest
    return first ++ others

def arguments (source : Finder φ) (scope : TypeScope) :
    List (TypeArgument ReferenceType) → TableM φ (List (TypeArgument Declaration))
  | [] => return []
  | arg :: rest => do
    let first ← argument source scope arg
    let others ← arguments source scope rest
    return first :: others

def argument (source : Finder φ) (scope : TypeScope) :
    TypeArgument ReferenceType → TableM φ (TypeArgument Declaration)
  | .any => return .any
  | .exact type => return ((← referenceType source scope type).map .exact).getD .any
  | .upper bound => return ((← referenceType source scope bound).map .upper).getD .any
  | .lower bound => return ((← referenceType source scope bound).map .lower).getD .any

/-- The declaration of a generic type or a base type, which has none. -/
def valueType (source : Finder φ) (scope : TypeScope) :
    ValueType ReferenceType → TableM φ (Option Declaration)
  | .base _ => return none
  | .reference type => referenceType source scope type

end

/-! ## Requests -/

/-- What a declaration can be resolved from. -/
inductive Request where
  /-- The binary name of a type. -/
  | type (binary : String)
  | package (qualified : String)
  /-- A member of a type, by its name and its descriptor. -/
  | member (owner name descriptor : String)
  | erased (type : FieldType)
  | generic (type : ReferenceType) (scope : TypeScope)
  | localVariable (method : Declaration) (name : String) (slot : Nat)

/-- The declaration that is asked for. -/
def resolve (source : Finder φ) : Request → TableM φ (Option Declaration)
  | .type binary => type source binary
  | .package qualified => some <$> package qualified
  | .member owner name descriptor => member source owner name descriptor
  | .erased type => fieldType source type
  | .generic type scope => referenceType source scope type
  | .localVariable method name slot => some <$> localVariable method name slot

end Table

end Rebuild
