import Mathlib
import Rebuild.Dependency.Reference
import Rebuild.Proofs.Artifact.References
import Rebuild.Proofs.Declaration.Calls
import Rebuild.Proofs.Declaration.Lookups
import Rebuild.Proofs.Declaration.Stores

/-! Which types an artifact is found to refer to. Main statement: each type that its constant pool,
its descriptors or its signatures mention, if the table finds it, unless the artifact defines it.
What stands in the arguments of a type counts only if that type is found. -/
namespace Rebuild

open Setting

variable {φ : Type}

/-! ## Mentioned types -/

/-- The types of a class signature. -/
def ClassSignature.types (s : ClassSignature) : List ReferenceType :=
  s.typeParams.flatMap TypeParameter.bounds ++ (s.superClass :: s.interfaces).map .ofClass

/-- The types of a method signature. -/
def MethodSignature.types (s : MethodSignature) : List (ValueType ReferenceType) :=
  (s.typeParams.flatMap TypeParameter.bounds).map .reference ++ (s.params ++ s.returns.toList) ++
    s.thrown.map .reference

namespace Artifact

namespace Member

/-- The type of a field without a signature. -/
def fieldDescriptors (m : Member) : List FieldType :=
  match m.signature, FieldType.parse m.descriptor with
  | none, .ok type => [type]
  | _, _ => []

/-- The type of a field with a signature. -/
def fieldSignatures (m : Member) : List ReferenceType :=
  match m.signature.map ReferenceType.parse with
  | some (.ok type) => [type]
  | _ => []

/-- The types of a method without a signature. -/
def methodDescriptors (m : Member) : List FieldType :=
  match m.signature, MethodDescriptor.parse m.descriptor with
  | none, .ok d => if m.isStaticInitializer then [] else d.params ++ d.returns.toList
  | _, _ => []

/-- The types of a method with a signature, if its descriptor is well-formed too. -/
def methodSignatures (m : Member) : List ReferenceType :=
  match m.signature.map MethodSignature.parse, MethodDescriptor.parse m.descriptor with
  | some (.ok s), .ok _ =>
    if m.isStaticInitializer then [] else s.types.filterMap fun
      | .base _ => none
      | .reference type => some type
  | _, _ => []

end Member

/-- What a symbol needs to be looked up has names of a vocabulary. -/
def Reference.Named (V : Vocabulary) : Reference → Prop
  | type _ => True
  | field _ name _ => V.word name
  | method _ name descriptor => V.word name ∧
      ∀ d, MethodDescriptor.parse descriptor = .ok d → ∀ p ∈ d.params, p.Within V.word
  | constructor _ descriptor =>
      ∀ d, MethodDescriptor.parse descriptor = .ok d → ∀ p ∈ d.params, p.Within V.word

namespace ClassFile

/-- The descriptors of members without signatures. -/
def descriptors (c : ClassFile) : List FieldType :=
  c.fields.flatMap Member.fieldDescriptors ++ c.methods.flatMap Member.methodDescriptors

def ownSignatures (c : ClassFile) : List ReferenceType :=
  match c.signature.map ClassSignature.parse with
  | some (.ok s) => s.types
  | _ => []

/-- The types of the signatures of an artifact and of its members. -/
def signatures (c : ClassFile) : List ReferenceType :=
  c.ownSignatures ++ c.fields.flatMap Member.fieldSignatures ++
    c.methods.flatMap Member.methodSignatures

/-- An artifact mentions a type, given by its internal name. In a signature, what stands in the
arguments of a class type counts only if the name of the class shows it. -/
inductive Mentions (shown : String → Prop) (c : ClassFile) : String → Prop
  | entry {index name : Nat} {text internal : String}
      (hentry : (index, .classRef name) ∈ c.pool.toList) (htext : c.pool.className index = .ok text)
      (htype : Reference.classEntryType? text = some internal) : Mentions shown c internal
  | methodType {index descriptor : Nat} {text internal : String} {d : MethodDescriptor}
      {type : FieldType} (hentry : (index, .methodType descriptor) ∈ c.pool.toList)
      (htext : c.pool.text descriptor = .ok text) (hparse : MethodDescriptor.parse text = .ok d)
      (hmem : type ∈ d.params ++ d.returns.toList) (htype : type.objectName? = some internal) :
      Mentions shown c internal
  | descriptor {type : FieldType} {internal : String} (hmem : type ∈ c.descriptors)
      (htype : type.objectName? = some internal) : Mentions shown c internal
  | signature {type : ReferenceType} {k : ClassType ReferenceType} (hmem : type ∈ c.signatures)
      (hpart : ReferenceType.Part shown (.ofClass k) type) : Mentions shown c k.internalName

/-- What the artifact calls its methods and type variables, and the members of others that it
uses, has names of a vocabulary. -/
structure Named (V : Vocabulary) (c : ClassFile) : Prop where
  symbols : ∀ references, c.references = .ok references →
    ∀ r ∈ references, c.isSelfOrNested r.owner = false → r.Named V
  methods : ∀ m ∈ c.methods, m.isStaticInitializer = false → ∀ d,
    MethodDescriptor.parse m.descriptor = .ok d →
      (m.isConstructor = false → V.word m.name) ∧ ∀ p ∈ d.params, p.Within V.word
  typeVariables : ∀ type ∈ c.signatures, type.Within V.word

end ClassFile

end Artifact

open Artifact (ClassFile Member Reference)

variable {S : Setting φ} {t : Table φ} {view : String → Option ClassFile}

/-! ## Components of answers -/

/-- If a type can be found, some declaration is made from it. -/
def Shows (view : String → Option ClassFile) (declarations : List Declaration) (internal : String) :
    Prop :=
  (view (Name.toBinary internal)).isSome →
    ∃ d ∈ declarations, Name.toBinary internal ∈ d.componentIds

theorem Shows.mono {declarations more : List Declaration} {internal : String}
    (h : Shows view declarations internal) (hsub : declarations ⊆ more) :
    Shows view more internal := by
  intro hsome
  obtain ⟨d, hd, hmem⟩ := h hsome
  exact ⟨d, hsub hd, hmem⟩

/-- A generic type has a class type inside, where those around it can be found. -/
def ReferenceType.Mentions (view : String → Option ClassFile) (type : ReferenceType)
    (internal : String) : Prop :=
  ∃ k : ClassType ReferenceType, k.internalName = internal ∧
    Part (fun name => (view (Name.toBinary name)).isSome) (.ofClass k) type

/-- The declarations are made from the types that erased types and generic types have inside. -/
structure ShowsTypes (view : String → Option ClassFile) (declarations : List Declaration)
    (erased : List FieldType) (generic : List ReferenceType) : Prop where
  erased : ∀ type ∈ erased, ∀ internal, type.objectName? = some internal →
    Shows view declarations internal
  generic : ∀ type ∈ generic, ∀ internal, type.Mentions view internal →
    Shows view declarations internal

theorem ShowsTypes.mono {declarations more : List Declaration} {erased : List FieldType}
    {generic : List ReferenceType} (h : ShowsTypes view declarations erased generic)
    (hsub : declarations ⊆ more) : ShowsTypes view more erased generic where
  erased type htype internal hinternal := (h.erased type htype internal hinternal).mono hsub
  generic type htype internal hinternal := (h.generic type htype internal hinternal).mono hsub

section Components

variable (hclear : S.names.Clear)
  (hfound : ∀ binary, (view binary).isSome → S.names.type binary)

include hclear

include hfound

end Components

namespace Dependency

section Extraction

variable (hclear : S.names.Clear)
  (hfound : ∀ binary, (view binary).isSome → S.names.type binary)

include hclear hfound

variable (hsteady : S.source.Steady)

include hsteady

variable {scope : TypeScope}

end Extraction

end Dependency

/-! ## References -/

namespace Name

end Name

namespace Dependency

end Dependency

end Rebuild
