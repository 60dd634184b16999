import Rebuild.Artifact.Error
import Rebuild.Text.Parser

/-!
Descriptors, the erased types of fields and methods: how they are written and how they are read.
-/
namespace Rebuild

inductive BaseType where
  | byte | char | double | float | int | long | short | boolean
  deriving DecidableEq, Repr

namespace BaseType

/-- The letter that stands for the type in descriptors and signatures. -/
def letter : BaseType → Char
  | byte => 'B'
  | char => 'C'
  | double => 'D'
  | float => 'F'
  | int => 'I'
  | long => 'J'
  | short => 'S'
  | boolean => 'Z'

def ofLetter? : Char → Option BaseType
  | 'B' => some byte
  | 'C' => some char
  | 'D' => some double
  | 'F' => some float
  | 'I' => some int
  | 'J' => some long
  | 'S' => some short
  | 'Z' => some boolean
  | _ => none

def keyword : BaseType → String
  | byte => "byte"
  | char => "char"
  | double => "double"
  | float => "float"
  | int => "int"
  | long => "long"
  | short => "short"
  | boolean => "boolean"

theorem ofLetter?_letter (b : BaseType) : ofLetter? b.letter = some b := by
  cases b <;> rfl

end BaseType

/-- An erased type. Object types go by their internal names. -/
inductive FieldType where
  | base (type : BaseType)
  | object (internal : String)
  | array (component : FieldType)
  deriving DecidableEq, Repr

namespace FieldType

/-- The type below all array dimensions. -/
def element : FieldType → FieldType
  | array component => component.element
  | base type => base type
  | object internal => object internal

def dimensions : FieldType → Nat
  | array component => component.dimensions + 1
  | base _ | object _ => 0

/-- The object type that the type mentions. -/
def objectName? (t : FieldType) : Option String :=
  match t.element with
  | object internal => some internal
  | _ => none

/-- The type as sources write it, with binary names. -/
def display : FieldType → String
  | base type => type.keyword
  | object internal =>
    String.ofList (internal.toList.map fun c => if c = '/' then '.' else c)
  | array component => component.display ++ "[]"

/-- The type as descriptors write it. -/
def descriptor : FieldType → List Char
  | base type => [type.letter]
  | object internal => 'L' :: internal.toList ++ [';']
  | array component => '[' :: descriptor component

/-- An array type with `dimensions` more dimensions. -/
def arrays : (dimensions : Nat) → FieldType → FieldType
  | 0, t => t
  | n + 1, t => arrays n (array t)

/-- The limit of the format on array dimensions. -/
def maxDimensions : Nat := 255

/-- A type that is no array. -/
def parseElement : Text.Parser FieldType := do
  match ← Text.Parser.peek? with
  | some c => match BaseType.ofLetter? c with
    | some type =>
      Text.Parser.expect c
      return base type
    | none =>
      Text.Parser.expect 'L'
      let name ← Text.Parser.word (· == ';')
      Text.Parser.expect ';'
      return object (String.ofList name)
  | none => Text.Parser.fail

/-- The number of opening brackets in front, which are taken. -/
def parseDimensions : Text.Parser Nat := fun rest =>
  .ok ((rest.takeWhile (· == '[')).length, rest.dropWhile (· == '['))

def parser : Text.Parser FieldType := do
  let dimensions ← parseDimensions
  if dimensions > maxDimensions then Text.Parser.fail
  else
    let element ← parseElement
    return arrays dimensions element

/-- Reads the descriptor of a field. -/
def parse (text : String) : Except DecodeError FieldType :=
  match Text.Parser.parseAll parser text with
  | .ok t => .ok t
  | .error _ => .error (.invalidDescriptor text)

end FieldType

/-- The erased types of a method. The return type of `void` methods is `none`. -/
structure MethodDescriptor where
  params : List FieldType
  returns : Option FieldType
  deriving DecidableEq, Repr

namespace MethodDescriptor

/-- The types as descriptors write them. -/
def descriptor (d : MethodDescriptor) : List Char :=
  '(' :: d.params.flatMap FieldType.descriptor ++ ')' ::
    match d.returns with
    | some t => t.descriptor
    | none => ['V']

def parseReturn : Text.Parser (Option FieldType) := do
  if ← Text.Parser.eat 'V' then return none
  else
    let t ← FieldType.parser
    return some t

def parser : Text.Parser MethodDescriptor := do
  Text.Parser.expect '('
  let params ← Text.Parser.untilChar ')' FieldType.parser
  let returns ← parseReturn
  return { params, returns }

/-- Reads the descriptor of a method. -/
def parse (text : String) : Except DecodeError MethodDescriptor :=
  match Text.Parser.parseAll parser text with
  | .ok d => .ok d
  | .error _ => .error (.invalidDescriptor text)

end MethodDescriptor

end Rebuild
