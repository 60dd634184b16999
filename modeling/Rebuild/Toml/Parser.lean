import Rebuild.Toml.Date
import Rebuild.Toml.Quoted
import Rebuild.Toml.Table

/-!
Documents in TOML.
-/
namespace Rebuild.Toml

open Text (Parser)
open Text.Parser (fail eat expect peek? finish word)

/-! ## Blanks and comments -/

def spaces : Parser Unit := fun rest => .ok ((), rest.dropWhile isSpace)

/-- A comment behind its mark. -/
def comment : Parser Unit := fun rest => .ok ((), rest.dropWhile isPrintable)

def optionalComment : Parser Unit := do
  if ← eat '#' then comment

/-- The end of a line or of the document. -/
def lineEnd : Parser Unit := fun rest => if rest = [] then .ok ((), []) else newline rest

/-- What may follow a pair or a header on its line. -/
def trailing : Parser Unit := do
  spaces
  optionalComment
  lineEnd

def blankUpTo : Nat → Parser Unit
  | 0 => fail
  | n + 1 => do
    spaces
    match ← peek? with
    | some '#' =>
      optionalComment
      newline
      blankUpTo n
    | some '\n' | some '\r' =>
      newline
      blankUpTo n
    | _ => return ()

/-- Blanks, line ends and comments between the elements of an array. -/
def blank : Parser Unit := fun rest => blankUpTo (rest.length + 1) rest

/-! ## Keys -/

def isBare (c : Char) : Bool := c.isAlphanum || c == '_' || c == '-'

/-- A key without dots. It may be a string on one line. -/
def simpleKey : Parser String := do
  if ← eat '"' then return String.ofList (← basicString)
  else if ← eat '\'' then return String.ofList (← literalString)
  else return String.ofList (← word fun c => !isBare c)

def keysUpTo : Nat → Parser (List String)
  | 0 => fail
  | n + 1 => do
    spaces
    let first ← simpleKey
    spaces
    if ← eat '.' then return first :: (← keysUpTo n)
    else return [first]

/-- The most keys that dots may join. -/
def maxKeys : Nat := 79

/-- Keys joined by dots: those of the tables around the last one, and the last one. -/
def dottedKey : Parser (List String × String) := do
  let keys ← keysUpTo maxKeys
  match keys.getLast? with
  | some last => return (keys.dropLast, last)
  | none => fail

/-! ## Values -/

/-- The characters that dates, numbers and names are made of. -/
def isScalarChar (c : Char) : Bool :=
  c.isAlphanum || c == '+' || c == '-' || c == '.' || c == '_' || c == ':'

/-- The value that a word stands for. -/
def scalar? (word : List Char) : Option Value :=
  if word = ['t', 'r', 'u', 'e'] then some (.boolean true)
  else if word = ['f', 'a', 'l', 's', 'e'] then some (.boolean false)
  else match spellDate? word with
    | some spelling => some (.date (String.ofList spelling))
    | none =>
      if isFloat word then some (.float (String.ofList word))
      else (integer? word).map .integer

/-- A word. A blank between a date and a time belongs to it. -/
def scalarWord (rest : List Char) : List Char × List Char :=
  let first := rest.takeWhile isScalarChar
  match (date? first), rest.dropWhile isScalarChar with
  | some (_, []), ' ' :: d :: tail =>
    if d.isDigit then
      (first ++ ' ' :: (d :: tail).takeWhile isScalarChar, (d :: tail).dropWhile isScalarChar)
    else (first, ' ' :: d :: tail)
  | _, tail => (first, tail)

def scalar : Parser Value := fun rest =>
  let (word, tail) := scalarWord rest
  match scalar? word with
  | some v => .ok (v, tail)
  | none => .error rest

def stringOrScalar : Parser Value := do
  match ← peek? with
  | some '"' | some '\'' => return .string (String.ofList (← quoted))
  | _ => scalar

def elementsUpTo (value : Parser Value) : Nat → Parser (List Value)
  | 0 => fail
  | n + 1 => do
    blank
    if ← eat ']' then return []
    else
      let first ← value
      blank
      if ← eat ',' then return first :: (← elementsUpTo value n)
      else
        expect ']'
        return [first]

/-- The elements of an array, behind its bracket. A comma may follow the last one. -/
def elements (value : Parser Value) : Parser (List Value) := fun rest =>
  elementsUpTo value (rest.length + 1) rest

/-- A key and its value. -/
def pair (value : Parser Value) : Parser Pair := do
  let (path, key) ← dottedKey
  expect '='
  spaces
  return ⟨path, key, ← value⟩

def pairsUpTo (value : Parser Value) : Nat → Parser (List Pair)
  | 0 => fail
  | n + 1 => do
    let first ← pair value
    spaces
    if ← eat ',' then return first :: (← pairsUpTo value n)
    else
      expect '}'
      return [first]

/-- The table in braces, behind the first of them. No comma follows the last pair. -/
def braces (value : Parser Value) : Parser Value := do
  spaces
  let pairs ← if ← eat '}' then pure [] else fun rest => pairsUpTo value (rest.length + 1) rest
  match inlineTable pairs with
  | some table => return table
  | none => fail

/-- A value with at most `depth` arrays and tables around each other. -/
def nestedValue : (depth : Nat) → Parser Value
  | 0 => stringOrScalar
  | depth + 1 => do
    if ← eat '[' then return .array (← elements (nestedValue depth))
    else if ← eat '{' then braces (nestedValue depth)
    else stringOrScalar

/-- How deep values may be nested. -/
def maxDepth : Nat := 79

def value : Parser Value := nestedValue maxDepth

/-! ## Documents -/

/-- A header, behind its first bracket: its keys, and whether the brackets are doubled. -/
def header : Parser (List String × String × Bool) := do
  let doubled ← eat '['
  let (path, key) ← dottedKey
  expect ']'
  if doubled then expect ']'
  trailing
  return (path, key, doubled)

/-- The pairs up to the next header, and the sections from there on. -/
def bodyUpTo : Nat → Parser (List Pair × List Section)
  | 0 => fail
  | n + 1 => do
    spaces
    match ← peek? with
    | none => return ([], [])
    | some '#' | some '\n' | some '\r' =>
      optionalComment
      lineEnd
      bodyUpTo n
    | some '[' =>
      expect '['
      let (path, key, repeated) ← header
      let (pairs, sections) ← bodyUpTo n
      return ([], { path, key, repeated, pairs } :: sections)
    | some _ =>
      let first ← pair value
      trailing
      let (pairs, sections) ← bodyUpTo n
      return (first :: pairs, sections)

/-- A mark of the byte order in front of a document does not count. -/
def dropMark : List Char → List Char
  | '\uFEFF' :: rest => rest
  | rest => rest

/-- The table of a document. -/
def parse (text : String) : Option Entries :=
  let cs := dropMark text.toList
  match (bodyUpTo (cs.length + 1)).run cs with
  | .ok ((pairs, sections), _) => assemble pairs sections
  | .error _ => none

end Rebuild.Toml
