import Rebuild.Declaration.Basic

/-!
The generic declarations around a signature.
-/
namespace Rebuild

/-- A declaration and the names of its type parameters. -/
structure TypeFrame where
  owner : Declaration
  params : List String

/-- The frames around a signature, innermost first. -/
structure TypeScope where
  frames : List TypeFrame := []

namespace TypeScope

/-- A scope with a single frame. -/
def ofOwner (owner : Declaration) (params : List String) : TypeScope := ⟨[⟨owner, params⟩]⟩

/-- Enters a declaration. -/
def push (s : TypeScope) (owner : Declaration) (params : List String) : TypeScope :=
  ⟨⟨owner, params⟩ :: s.frames⟩

/-- Leaves the innermost declaration. -/
def pop (s : TypeScope) : TypeScope := ⟨s.frames.tail⟩

/-- The owner of a type variable: the innermost frame that declares its name. A name that no
frame declares belongs to the outermost one. -/
def owner? (s : TypeScope) (name : String) : Option Declaration :=
  match s.frames.find? fun frame => frame.params.contains name with
  | some frame => some frame.owner
  | none => s.frames.getLast?.map TypeFrame.owner

end TypeScope

end Rebuild
