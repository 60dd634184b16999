import Rebuild.Signature.Basic

/-!
Signatures as artifacts write them.
-/
namespace Rebuild

mutual

/-- A type of references as signatures write it. -/
def ReferenceType.signature : ReferenceType → List Char
  | .ofClass type => ClassType.signature type
  | .array component => '[' :: ValueType.signature component
  | .typeVariable name => 'T' :: name.toList ++ [';']

/-- A class type: its segments with dots between them, `L` in front and `;` behind. -/
def ClassType.signature : ClassType ReferenceType → List Char
  | ⟨outer, nested⟩ =>
    'L' :: ClassSegment.signature outer ++ ClassSegment.signatures nested ++ [';']

def ClassSegment.signature : ClassSegment ReferenceType → List Char
  | ⟨name, args⟩ => name.toList ++ TypeArgument.list args

def ClassSegment.signatures : List (ClassSegment ReferenceType) → List Char
  | [] => []
  | segment :: rest =>
    '.' :: ClassSegment.signature segment ++ ClassSegment.signatures rest

/-- An empty list of arguments is not written at all. -/
def TypeArgument.list : List (TypeArgument ReferenceType) → List Char
  | [] => []
  | arg :: rest => '<' :: TypeArgument.signature arg ++ TypeArgument.signatures rest ++ ['>']

def TypeArgument.signatures : List (TypeArgument ReferenceType) → List Char
  | [] => []
  | arg :: rest => TypeArgument.signature arg ++ TypeArgument.signatures rest

def TypeArgument.signature : TypeArgument ReferenceType → List Char
  | .any => ['*']
  | .exact type => ReferenceType.signature type
  | .upper bound => '+' :: ReferenceType.signature bound
  | .lower bound => '-' :: ReferenceType.signature bound

def ValueType.signature : ValueType ReferenceType → List Char
  | .base type => [type.letter]
  | .reference type => ReferenceType.signature type

end

namespace TypeParameter

/-- A parameter with its bounds. The first colon belongs to the class bound, which may be left
out. -/
def signature (p : TypeParameter) : List Char :=
  p.name.toList ++ ':' ::
    (match p.classBound with
      | some bound => bound.signature
      | none => [])
    ++ p.interfaceBounds.flatMap fun bound => ':' :: bound.signature

/-- An empty list of parameters is not written at all. -/
def list (params : List TypeParameter) : List Char :=
  if params.isEmpty then [] else '<' :: params.flatMap signature ++ ['>']

end TypeParameter

def ClassSignature.signature (s : ClassSignature) : List Char :=
  TypeParameter.list s.typeParams ++ s.superClass.signature
    ++ s.interfaces.flatMap ClassType.signature

def MethodSignature.signature (s : MethodSignature) : List Char :=
  TypeParameter.list s.typeParams ++ '(' :: s.params.flatMap ValueType.signature ++ ')' ::
    (match s.returns with
      | some type => type.signature
      | none => ['V'])
    ++ s.thrown.flatMap fun type => '^' :: type.signature

end Rebuild
