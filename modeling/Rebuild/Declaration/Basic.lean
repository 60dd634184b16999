import Rebuild.Dict
import Rebuild.Signature.Basic

/-!
Declarations: packages, types, their members, and the types made from them.
-/
namespace Rebuild

inductive DeclarationKind where
  | package
  | type
  | field
  | method
  | constructor
  | localVariable
  | typeVariable
  | parameterized
  | array
  deriving DecidableEq, Repr

/-- A declaration. Its owner depends on its kind: a package owns top-level types, a type owns
its nested types and its members, a method owns its variables, a component type owns its array
type and a base type owns its parameterized types. -/
structure Declaration where
  /-- The number under which the table made it; two declarations can share the identifier. -/
  serial : Nat
  /-- The canonical identifier. -/
  id : String
  kind : DeclarationKind
  name : String
  owner : Option Declaration
  modifiers : UInt16 := 0
  /-- The erased parameter types of methods and constructors. -/
  params : List String := []
  /-- The arguments of a parameterized type. -/
  args : List (TypeArgument Declaration) := []

namespace Declaration

def isType (d : Declaration) : Bool := d.kind == .type

def isExecutable (d : Declaration) : Bool := d.kind == .method || d.kind == .constructor

/-- The binary name of a type. -/
def qualifiedName? (d : Declaration) : Option String := if d.isType then some d.id else none

/-- The closest type around the declaration, the declaration itself if it is a type. -/
def enclosingType? : Declaration → Option Declaration
  | ⟨serial, id, kind, name, none, modifiers, params, args⟩ =>
    if kind = .type then some ⟨serial, id, kind, name, none, modifiers, params, args⟩ else none
  | ⟨serial, id, kind, name, some owner, modifiers, params, args⟩ =>
    if kind = .type then some ⟨serial, id, kind, name, some owner, modifiers, params, args⟩
    else owner.enclosingType?

/-- The last of a chain of owners that are all types, starting from a type. -/
def outermost : Declaration → Declaration
  | ⟨serial, id, kind, name, none, modifiers, params, args⟩ =>
    ⟨serial, id, kind, name, none, modifiers, params, args⟩
  | ⟨serial, id, kind, name, some owner, modifiers, params, args⟩ =>
    if owner.isType then owner.outermost
    else ⟨serial, id, kind, name, some owner, modifiers, params, args⟩

/-- The outermost type around the declaration, the one that a source file defines. -/
def rootType? (d : Declaration) : Option Declaration := d.enclosingType?.map outermost

mutual

/-- The types that the declaration is made from: a type itself, the element of an array, the
base and the arguments of a parameterized type. -/
def componentTypes : Declaration → List Declaration
  | ⟨serial, id, kind, name, owner, modifiers, params, args⟩ =>
    match kind with
    | .type => [⟨serial, id, kind, name, owner, modifiers, params, args⟩]
    | .array => ownerComponents owner
    | .parameterized => ownerComponents owner ++ argumentsComponents args
    | _ => []

def ownerComponents : Option Declaration → List Declaration
  | none => []
  | some owner => owner.componentTypes

def argumentsComponents : List (TypeArgument Declaration) → List Declaration
  | [] => []
  | arg :: rest => argumentComponents arg ++ argumentsComponents rest

def argumentComponents : TypeArgument Declaration → List Declaration
  | .any => []
  | .exact d => d.componentTypes
  | .upper d => d.componentTypes
  | .lower d => d.componentTypes

end

end Declaration

/-- An argument as identifiers of parameterized types show it. -/
def TypeArgument.fragment : TypeArgument Declaration → String
  | any => "?"
  | exact d => d.id
  | upper d => "? extends " ++ d.id
  | lower d => "? super " ++ d.id

/-! ## Sets -/

/-- A set of declarations, in which identifiers tell them apart. -/
structure DeclarationSet where
  byId : Dict String Declaration := .empty

namespace DeclarationSet

/-- Puts a declaration in, unless there is one with the same identifier. -/
def insert (s : DeclarationSet) (d : Declaration) : DeclarationSet :=
  if s.byId.contains d.id then s else ⟨s.byId.put d.id d⟩

def insertAll (s : DeclarationSet) (declarations : List Declaration) : DeclarationSet :=
  declarations.foldl insert s

def toList (s : DeclarationSet) : List Declaration := s.byId.values

def ids (s : DeclarationSet) : List String := s.byId.keys

/-- The declarations in ascending order of their identifiers. -/
def sorted (s : DeclarationSet) : List Declaration := s.toList.mergeSort fun a b => a.id ≤ b.id

/-- Do two sets hold the same identifiers? -/
def same (s t : DeclarationSet) : Bool :=
  s.ids.all (t.byId.contains ·) && t.ids.all (s.byId.contains ·)

theorem mem_ids_insert {s : DeclarationSet} {d : Declaration} {id : String} :
    id ∈ (s.insert d).ids ↔ id = d.id ∨ id ∈ s.ids := by
  unfold insert
  split
  next h =>
    have hd : d.id ∈ s.ids := (s.byId.contains_eq d.id).mp h
    constructor
    · exact Or.inr
    · rintro (rfl | h)
      · exact hd
      · exact h
  next h =>
    have hd : d.id ∉ s.byId.keys := fun hd => h ((s.byId.contains_eq d.id).mpr hd)
    simp only [ids, Dict.keys_put, hd, ↓reduceIte, List.mem_append, List.mem_singleton]
    exact Or.comm

theorem nodup_ids_insert {s : DeclarationSet} (h : s.ids.Nodup) (d : Declaration) :
    (s.insert d).ids.Nodup := by
  unfold insert
  split
  · exact h
  · exact Dict.nodup_keys_put h _ _

theorem mem_ids_insertAll {s : DeclarationSet} (declarations : List Declaration) {id : String} :
    id ∈ (s.insertAll declarations).ids ↔ id ∈ declarations.map Declaration.id ∨ id ∈ s.ids := by
  induction declarations generalizing s with
  | nil => simp [insertAll]
  | cons d rest ih =>
    rw [insertAll, List.foldl_cons, ← insertAll, ih, mem_ids_insert, List.map_cons, List.mem_cons]
    constructor
    · rintro (h | h | h)
      · exact Or.inl (Or.inr h)
      · exact Or.inl (Or.inl h)
      · exact Or.inr h
    · rintro ((h | h) | h)
      · exact Or.inr (Or.inl h)
      · exact Or.inl h
      · exact Or.inr (Or.inr h)

theorem nodup_ids_insertAll {s : DeclarationSet} (h : s.ids.Nodup)
    (declarations : List Declaration) : (s.insertAll declarations).ids.Nodup := by
  induction declarations generalizing s with
  | nil => exact h
  | cons d rest ih => exact ih (nodup_ids_insert h d)

theorem same_iff (s t : DeclarationSet) : s.same t ↔ ∀ id, id ∈ s.ids ↔ id ∈ t.ids := by
  simp only [same, Bool.and_eq_true, List.all_eq_true, Dict.contains_eq]
  constructor
  · exact fun h id => ⟨h.1 id, h.2 id⟩
  · exact fun h => ⟨fun id => (h id).mp, fun id => (h id).mpr⟩

end DeclarationSet

end Rebuild
