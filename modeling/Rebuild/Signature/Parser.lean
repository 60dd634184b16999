import Rebuild.Signature.Basic

/-!
Reading generic signatures. Arrays and type arguments may nest to a fixed depth only.
-/
namespace Rebuild

open Text (Parser)

/-! ## Parts, over a parser of the types inside -/

namespace TypeArgument

def parser (type : Parser α) : Parser (TypeArgument α) := do
  if ← Parser.eat '*' then return any
  else if ← Parser.eat '+' then upper <$> type
  else if ← Parser.eat '-' then lower <$> type
  else exact <$> type

end TypeArgument

/-- A name and, in angle brackets, its arguments. -/
def ClassSegment.parser (type : Parser α) : Parser (ClassSegment α) := do
  let name ← Parser.word fun c => c == '<' || c == ';' || c == '.'
  if ← Parser.eat '<' then
    let args ← Parser.untilChar '>' (TypeArgument.parser type)
    return { name := String.ofList name, args }
  else return { name := String.ofList name, args := [] }

def ClassType.parser (type : Parser α) : Parser (ClassType α) := do
  Parser.expect 'L'
  let outer ← ClassSegment.parser type
  let nested ← Parser.many '.' (ClassSegment.parser type)
  Parser.expect ';'
  return { outer, nested }

def ValueType.parser (type : Parser α) : Parser (ValueType α) := do
  match (← Parser.peek?).bind BaseType.ofLetter? with
  | some primitive =>
    Parser.expect primitive.letter
    return .base primitive
  | none => .reference <$> type

/-! ## Types -/

namespace ReferenceType

/-- The limit on the nesting of arrays and type arguments. -/
def maxDepth : Nat := 255

/-- A type that nests at most `depth` deep. -/
def parserUpTo : (depth : Nat) → Parser ReferenceType
  | 0 => Parser.fail
  | depth + 1 => do
    match ← Parser.peek? with
    | some 'L' => ofClass <$> ClassType.parser (parserUpTo depth)
    | some 'T' =>
      Parser.expect 'T'
      let name ← Parser.word (· == ';')
      Parser.expect ';'
      return typeVariable (String.ofList name)
    | some '[' =>
      Parser.expect '['
      array <$> ValueType.parser (parserUpTo depth)
    | _ => Parser.fail

def parser : Parser ReferenceType := parserUpTo maxDepth

end ReferenceType

namespace TypeParameter

/-- A class bound starts like a type; otherwise there is none. -/
def parseClassBound : Parser (Option ReferenceType) := do
  match ← Parser.peek? with
  | some 'L' | some 'T' | some '[' => some <$> ReferenceType.parser
  | _ => return none

def parser : Parser TypeParameter := do
  let name ← Parser.word fun c => c == ':' || c == '>' || c == ';'
  Parser.expect ':'
  let classBound ← parseClassBound
  let interfaceBounds ← Parser.many ':' ReferenceType.parser
  return { name := String.ofList name, classBound, interfaceBounds }

/-- The parameters in angle brackets, or none. -/
def listParser : Parser (List TypeParameter) := do
  if ← Parser.eat '<' then Parser.untilChar '>' parser else return []

end TypeParameter

/-! ## Whole signatures -/

def signatureError (text : String) (result : Except Nat α) : Except DecodeError α :=
  match result with
  | .ok a => .ok a
  | .error offset => .error (.invalidSignature text offset)

/-- Reads the signature of a field. -/
def ReferenceType.parse (text : String) : Except DecodeError ReferenceType :=
  signatureError text (Parser.parseAll ReferenceType.parser text)

def ClassSignature.parser : Parser ClassSignature := do
  let typeParams ← TypeParameter.listParser
  let superClass ← ClassType.parser ReferenceType.parser
  let interfaces ← Parser.toEnd (ClassType.parser ReferenceType.parser)
  return { typeParams, superClass, interfaces }

/-- Reads the signature of a class. -/
def ClassSignature.parse (text : String) : Except DecodeError ClassSignature :=
  signatureError text (Parser.parseAll ClassSignature.parser text)

namespace MethodSignature

def parseReturn : Parser (Option (ValueType ReferenceType)) := do
  if ← Parser.eat 'V' then return none
  else some <$> ValueType.parser ReferenceType.parser

def parser : Parser MethodSignature := do
  let typeParams ← TypeParameter.listParser
  Parser.expect '('
  let params ← Parser.untilChar ')' (ValueType.parser ReferenceType.parser)
  let returns ← parseReturn
  let thrown ← Parser.many '^' ReferenceType.parser
  return { typeParams, params, returns, thrown }

/-- Reads the signature of a method. -/
def parse (text : String) : Except DecodeError MethodSignature :=
  signatureError text (Parser.parseAll parser text)

end MethodSignature

end Rebuild
