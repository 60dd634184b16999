import Mathlib
import Rebuild.Signature.Basic

/-! The types inside a generic type. -/
namespace Rebuild

/-- What an argument of a parameterized type holds. -/
def TypeArgument.type? : TypeArgument α → Option α
  | any => none
  | exact type | upper type | lower type => some type

theorem ClassType.args_mk (outer : ClassSegment α) (nested : List (ClassSegment α)) :
    (ClassType.mk outer nested).args = outer.args ++ nested.flatMap ClassSegment.args := rfl

namespace ReferenceType

/-- The arguments of a class type are smaller than it. -/
theorem sizeOf_lt_ofClass {c : ClassType ReferenceType} {a : TypeArgument ReferenceType}
    {type : ReferenceType} (ha : a ∈ c.args) (htype : a.type? = some type) :
    sizeOf type < sizeOf (ofClass c) := by
  have hargument : sizeOf type < sizeOf a := by
    cases a <;> simp_all [TypeArgument.type?]
  have hsegment {segment : ClassSegment ReferenceType} (h : a ∈ segment.args) :
      sizeOf a < sizeOf segment := by
    obtain ⟨name, args⟩ := segment
    have := List.sizeOf_lt_of_mem h
    simp_all
    omega
  obtain ⟨outer, nested⟩ := c
  simp only [ofClass.sizeOf_spec, ClassType.mk.sizeOf_spec]
  rcases List.mem_append.mp (ClassType.args_mk outer nested ▸ ha) with h | h
  · have := hsegment h
    omega
  · obtain ⟨segment, hmem, h⟩ := List.mem_flatMap.mp h
    have := hsegment h
    have := List.sizeOf_lt_of_mem hmem
    omega

/-- Induction over a generic type, down to what its arguments hold. -/
theorem induction {motive : ReferenceType → Prop}
    (variableCase : ∀ name, motive (.typeVariable name))
    (baseCase : ∀ type, motive (.array (.base type)))
    (arrayCase : ∀ component, motive component → motive (.array (.reference component)))
    (classCase : ∀ c : ClassType ReferenceType,
      (∀ a ∈ c.args, ∀ type, a.type? = some type → motive type) → motive (.ofClass c))
    (type : ReferenceType) : motive type := by
  induction hn : sizeOf type using Nat.strong_induction_on generalizing type with
  | _ n ih =>
    subst hn
    cases type with
    | typeVariable name => exact variableCase name
    | array component =>
      cases component with
      | base type => exact baseCase type
      | reference component =>
        have hlt : sizeOf component < sizeOf (array (.reference component)) := by
          simp only [array.sizeOf_spec, ValueType.reference.sizeOf_spec]
          omega
        exact arrayCase component (ih _ hlt component rfl)
    | ofClass c =>
      exact classCase c fun a ha type htype => ih _ (sizeOf_lt_ofClass ha htype) type rfl

/-- A type inside another. What the arguments of a class type hold counts only if the name of the
class shows it. -/
inductive Part (shown : String → Prop) (part : ReferenceType) : ReferenceType → Prop
  | self : Part shown part part
  | component {type : ReferenceType} (h : Part shown part type) :
      Part shown part (.array (.reference type))
  | argument {c : ClassType ReferenceType} {a : TypeArgument ReferenceType} {type : ReferenceType}
      (hshown : shown c.internalName) (ha : a ∈ c.args) (htype : a.type? = some type)
      (h : Part shown part type) : Part shown part (.ofClass c)

/-- All type variables have names with some property. -/
def Within (word : String → Prop) (type : ReferenceType) : Prop :=
  ∀ name, Part (fun _ => True) (.typeVariable name) type → word name

theorem Within.component {word : String → Prop} {type : ReferenceType}
    (h : Within word (.array (.reference type))) : Within word type :=
  fun name hname => h name (.component hname)

theorem Within.argument {word : String → Prop} {c : ClassType ReferenceType}
    {a : TypeArgument ReferenceType} {type : ReferenceType} (h : Within word (.ofClass c))
    (ha : a ∈ c.args) (htype : a.type? = some type) : Within word type :=
  fun name hname => h name (.argument trivial ha htype hname)

end ReferenceType

end Rebuild
