/-!
Parsers over a list of characters. A failing parser yields the characters from the place where
it failed, so that the caller can name that place.
-/
namespace Rebuild.Text

abbrev Parser := StateT (List Char) (Except (List Char))

namespace Parser

/-- Fails at the current place. -/
def fail : Parser α := fun rest => .error rest

/-- The next character, which is not taken. -/
def peek? : Parser (Option Char) := fun rest => .ok (rest.head?, rest)

/-- Takes the character `c` if it is next, and tells whether it was. -/
def eat (c : Char) : Parser Bool := fun rest =>
  match rest with
  | [] => .ok (false, [])
  | d :: tail => if d = c then .ok (true, tail) else .ok (false, d :: tail)

/-- Takes the character `c`. -/
def expect (c : Char) : Parser Unit := fun rest =>
  match rest with
  | [] => .error []
  | d :: tail => if d = c then .ok ((), tail) else .error (d :: tail)

/-- Succeeds at the end of the text only. -/
def finish : Parser Unit := fun rest =>
  if rest = [] then .ok ((), []) else .error rest

/-- The characters up to the first one that `stop` holds of, at least one. Without such a
character all the rest is taken. -/
def word (stop : Char → Bool) : Parser (List Char) := fun rest =>
  let taken := rest.takeWhile fun c => !stop c
  if taken = [] then .error rest else .ok (taken, rest.dropWhile fun c => !stop c)

def manyUpTo (opening : Char) (item : Parser α) : Nat → Parser (List α)
  | 0 => fail
  | n + 1 => do
    if ← eat opening then
      let first ← item
      let others ← manyUpTo opening item n
      return first :: others
    else return []

/-- Items that are each announced by the character `opening`. -/
def many (opening : Char) (item : Parser α) : Parser (List α) := fun rest =>
  manyUpTo opening item (rest.length + 1) rest

def untilUpTo (closing : Char) (item : Parser α) : Nat → Parser (List α)
  | 0 => fail
  | n + 1 => do
    if ← eat closing then return []
    else
      let first ← item
      let others ← untilUpTo closing item n
      return first :: others

/-- Items up to the character `closing`, which is taken. The items are not empty. -/
def untilChar (closing : Char) (item : Parser α) : Parser (List α) := fun rest =>
  untilUpTo closing item (rest.length + 1) rest

def toEndUpTo (item : Parser α) : Nat → Parser (List α)
  | 0 => fail
  | n + 1 => fun rest =>
    if rest = [] then .ok ([], [])
    else (do
      let first ← item
      let others ← toEndUpTo item n
      return first :: others : Parser (List α)) rest

/-- Items up to the end of the text. The items are not empty. -/
def toEnd (item : Parser α) : Parser (List α) := fun rest =>
  toEndUpTo item (rest.length + 1) rest

/-- Parses the whole of a text; a failure is given as the number of bytes before it. -/
def parseAll (parser : Parser α) (text : String) : Except Nat α :=
  match (do let a ← parser; finish; return a : Parser α) text.toList with
  | .ok (a, _) => .ok a
  | .error rest => .error (text.utf8ByteSize - (String.ofList rest).utf8ByteSize)

end Parser

end Rebuild.Text
