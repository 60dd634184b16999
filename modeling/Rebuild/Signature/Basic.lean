import Rebuild.Descriptor

/-!
Generic signatures: the types that erased descriptors leave out.
-/
namespace Rebuild

/-- An argument of a parameterized type: anything, or a type that it is, that it extends, or
that extends it. -/
inductive TypeArgument (α : Type) where
  | any
  | exact (type : α)
  | upper (bound : α)
  | lower (bound : α)
  deriving DecidableEq, Repr

/-- One name of a class type with its arguments. The first name of a class type carries the
package. -/
structure ClassSegment (α : Type) where
  name : String
  args : List (TypeArgument α)
  deriving DecidableEq, Repr

/-- A class type: a class and, where arguments stand between the names, types nested in it. -/
structure ClassType (α : Type) where
  outer : ClassSegment α
  nested : List (ClassSegment α)
  deriving DecidableEq, Repr

namespace ClassType

def segments (c : ClassType α) : List (ClassSegment α) := c.outer :: c.nested

/-- The erased internal name, with `$` between the segments. -/
def internalName (c : ClassType α) : String :=
  String.intercalate "$" (c.segments.map ClassSegment.name)

/-- The arguments of all segments, outermost first. -/
def args (c : ClassType α) : List (TypeArgument α) := c.segments.flatMap ClassSegment.args

def isParameterized (c : ClassType α) : Bool :=
  c.segments.any fun segment => !segment.args.isEmpty

end ClassType

/-- A base type, or a type of references. -/
inductive ValueType (α : Type) where
  | base (type : BaseType)
  | reference (type : α)
  deriving DecidableEq, Repr

/-- A type of references: a class type, an array, or a type variable. -/
inductive ReferenceType where
  | ofClass (type : ClassType ReferenceType)
  | array (component : ValueType ReferenceType)
  | typeVariable (name : String)

/-- A type parameter with its bounds. -/
structure TypeParameter where
  name : String
  classBound : Option ReferenceType
  interfaceBounds : List ReferenceType

namespace TypeParameter

/-- All bounds, the class bound first. -/
def bounds (p : TypeParameter) : List ReferenceType := p.classBound.toList ++ p.interfaceBounds

end TypeParameter

structure ClassSignature where
  typeParams : List TypeParameter
  superClass : ClassType ReferenceType
  interfaces : List (ClassType ReferenceType)

/-- The generic types of a method. The return type of `void` methods is `none`. -/
structure MethodSignature where
  typeParams : List TypeParameter
  params : List (ValueType ReferenceType)
  returns : Option (ValueType ReferenceType)
  thrown : List ReferenceType

end Rebuild
