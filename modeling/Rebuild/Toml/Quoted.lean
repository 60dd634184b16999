import Rebuild.Text.Parser
import Rebuild.Toml.Number

/-!
Strings in TOML: in single or double quotes, on one line or, in three quotes, on several. Only
double quotes have escapes.
-/
namespace Rebuild.Toml

open Text (Parser)
open Text.Parser (fail expect peek? untilChar)

/-! ## Characters -/

/-- Blanks within a line. -/
def isSpace (c : Char) : Bool := c == ' ' || c == '\t'

/-- No control character but the tab may be written as it is. -/
def isPrintable (c : Char) : Bool := c == '\t' || (' ' ≤ c && c != '\x7f')

/-- The next character if it has property `p`. -/
def satisfy (p : Char → Bool) : Parser Char := fun rest =>
  match rest with
  | c :: tail => if p c then .ok (c, tail) else .error rest
  | [] => .error []

/-- A line end: a line feed, or a carriage return with a line feed. -/
def newline : Parser Unit := fun rest =>
  match rest with
  | '\n' :: tail => .ok ((), tail)
  | '\r' :: '\n' :: tail => .ok ((), tail)
  | _ => .error rest

def atNewline : List Char → Bool
  | '\n' :: _ | '\r' :: '\n' :: _ => true
  | _ => false

/-! ## Escapes -/

/-- The character whose number has `count` hexadecimal digits. Surrogates are no characters. -/
def codePoint (count : Nat) : Parser Char := fun rest =>
  let digits := rest.take count
  let n := valueIn 16 digits
  if digits.length = count && digits.all isHex && n.isValidChar then
    .ok (Char.ofNat n, rest.drop count)
  else .error rest

/-- An escape behind its backslash. -/
def escape : Parser Char := do
  match ← satisfy fun _ => true with
  | 'b' => return '\x08'
  | 'f' => return '\x0c'
  | 'n' => return '\n'
  | 'r' => return '\r'
  | 't' => return '\t'
  | 'u' => codePoint 4
  | 'U' => codePoint 8
  | '\\' => return '\\'
  | '"' => return '"'
  | _ => fail

/-! ## One line -/

/-- A character between double quotes. -/
def basicChar : Parser Char := do
  let c ← satisfy isPrintable
  if c = '\\' then escape else return c

/-- A string in double quotes, behind the first of them. -/
def basicString : Parser (List Char) := untilChar '"' basicChar

/-- A string in single quotes, behind the first of them. -/
def literalString : Parser (List Char) := untilChar '\'' (satisfy isPrintable)

/-! ## Several lines -/

/-- Blanks and line ends. -/
def skipBlank : List Char → List Char
  | ' ' :: rest | '\t' :: rest | '\n' :: rest | '\r' :: '\n' :: rest => skipBlank rest
  | rest => rest

/-- A character that may stand on one of several lines. All line ends become line feeds. -/
def lineChar : Parser (List Char) := fun rest =>
  if atNewline rest then (do newline; return ['\n'] : Parser (List Char)) rest
  else (do return [← satisfy isPrintable] : Parser (List Char)) rest

/-- A backslash at the end of a line takes all blanks behind it with it. -/
def escapeOrJoin : Parser (List Char) := fun rest =>
  if atNewline (rest.dropWhile isSpace) then .ok ([], skipBlank rest)
  else (do return [← escape] : Parser (List Char)) rest

/-- A character of a string on several lines in double quotes. -/
def basicLineChar : Parser (List Char) := do
  if (← peek?) = some '\\' then
    expect '\\'
    escapeOrJoin
  else lineChar

/-- The characters up to three quotes, which are taken. Up to two more quotes directly in front
of them belong to the string. -/
def untilQuotesUpTo (quote : Char) (item : Parser (List Char)) : Nat → Parser (List Char)
  | 0 => fail
  | n + 1 => fun rest =>
    let quotes := (rest.takeWhile (· = quote)).length
    if quotes ≥ 3 then
      let inside := min (quotes - 3) 2
      .ok (List.replicate inside quote, rest.drop (inside + 3))
    else (do
      let first ← if quotes = 0 then item else (do expect quote; return [quote])
      let others ← untilQuotesUpTo quote item n
      return first ++ others : Parser (List Char)) rest

/-- A string on several lines, behind the first three quotes. A line end right behind them does
not count. -/
def multiline (quote : Char) (item : Parser (List Char)) : Parser (List Char) := fun rest =>
  let start := match rest with
    | '\n' :: tail | '\r' :: '\n' :: tail => tail
    | _ => rest
  untilQuotesUpTo quote item (start.length + 1) start

/-- A string of any kind. -/
def quoted : Parser (List Char) := fun rest =>
  match rest with
  | '"' :: '"' :: '"' :: tail => multiline '"' basicLineChar tail
  | '"' :: tail => basicString tail
  | '\'' :: '\'' :: '\'' :: tail => multiline '\'' lineChar tail
  | '\'' :: tail => literalString tail
  | _ => .error rest

end Rebuild.Toml
