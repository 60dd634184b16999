import Rebuild.Signature.Basic

/-!
Signatures as trees in parentheses, which show how a signature was understood: each node names
its kind and lists its parts.
-/
namespace Rebuild

mutual

/-- The tree of a type of references. -/
def ReferenceType.tree : ReferenceType → String
  | .ofClass type => ClassType.tree type
  | .array component => "(array " ++ ValueType.tree component ++ ")"
  | .typeVariable name => "(var " ++ name ++ ")"

/-- A class type has a part for each of its segments. -/
def ClassType.tree : ClassType ReferenceType → String
  | ⟨outer, nested⟩ => "(class " ++ ClassSegment.tree outer ++ ClassSegment.trees nested ++ ")"

/-- A segment has its name and a part for each argument. -/
def ClassSegment.tree : ClassSegment ReferenceType → String
  | ⟨name, args⟩ => "(seg " ++ name ++ TypeArgument.trees args ++ ")"

def ClassSegment.trees : List (ClassSegment ReferenceType) → String
  | [] => ""
  | segment :: rest => " " ++ ClassSegment.tree segment ++ ClassSegment.trees rest

def TypeArgument.trees : List (TypeArgument ReferenceType) → String
  | [] => ""
  | arg :: rest => " " ++ TypeArgument.tree arg ++ TypeArgument.trees rest

def TypeArgument.tree : TypeArgument ReferenceType → String
  | .any => "*"
  | .exact type => "(= " ++ ReferenceType.tree type ++ ")"
  | .upper bound => "(+ " ++ ReferenceType.tree bound ++ ")"
  | .lower bound => "(- " ++ ReferenceType.tree bound ++ ")"

def ValueType.tree : ValueType ReferenceType → String
  | .base type => "(base " ++ type.keyword ++ ")"
  | .reference type => ReferenceType.tree type

end

end Rebuild
