import Rebuild.Text.Split

/-!
Numbers in TOML: integers in four bases and floating-point numbers, both with underscores
between digits.
-/
namespace Rebuild.Toml

/-! ## Digits -/

def isBinary (c : Char) : Bool := c == '0' || c == '1'

def isOctal (c : Char) : Bool := '0' ≤ c && c ≤ '7'

def isHex (c : Char) : Bool := c.isDigit || ('a' ≤ c && c ≤ 'f') || ('A' ≤ c && c ≤ 'F')

def digitValue (c : Char) : Nat :=
  if c.isDigit then c.toNat - 48 else c.toLower.toNat - 87

/-- Digits without the underscores between them. Each underscore has a digit on both sides. -/
def digits? (isDigit : Char → Bool) (cs : List Char) : Option (List Char) :=
  let groups := Text.splitChars '_' cs
  if groups.all fun group => group ≠ [] && group.all isDigit then some groups.flatten else none

def valueIn (base : Nat) (digits : List Char) : Nat :=
  digits.foldl (fun n c => n * base + digitValue c) 0

/-- A sign is a plus or a minus, and there need not be one. -/
def splitSign : List Char → Bool × List Char
  | '-' :: rest => (true, rest)
  | '+' :: rest => (false, rest)
  | rest => (false, rest)

/-- The digits of a whole number, which has no leading zeros. -/
def wholeDigits? (cs : List Char) : Option (List Char) :=
  match cs with
  | ['0'] => some ['0']
  | '0' :: _ => none
  | _ => digits? Char.isDigit cs

/-! ## Integers -/

/-- Integers have 64 bits. -/
def bounded? (n : Int) : Option Int :=
  if -9223372036854775808 ≤ n ∧ n ≤ 9223372036854775807 then some n else none

def inBase? (base : Nat) (isDigit : Char → Bool) (cs : List Char) : Option Int :=
  (digits? isDigit cs).bind fun digits => bounded? (valueIn base digits)

def decimal? (cs : List Char) : Option Int :=
  let (negative, cs) := splitSign cs
  (wholeDigits? cs).bind fun digits =>
    let n : Int := valueIn 10 digits
    bounded? (if negative then -n else n)

def integer? : List Char → Option Int
  | '0' :: 'x' :: cs => inBase? 16 isHex cs
  | '0' :: 'o' :: cs => inBase? 8 isOctal cs
  | '0' :: 'b' :: cs => inBase? 2 isBinary cs
  | cs => decimal? cs

/-! ## Floating-point numbers -/

/-- A decimal number, which is `digits` times ten to the power of `exponent`. -/
structure Decimal where
  negative : Bool
  digits : Nat
  exponent : Int

namespace Decimal

/-- The least number that rounds to infinity in double precision. -/
def overflow : Nat := Nat.pow 2 1024 - Nat.pow 2 970

/-- Is the magnitude too large for double precision? Exponents far from the limit decide without
computing the power. -/
def isInfinite (d : Decimal) : Bool :=
  let magnitude := (Nat.toDigits 10 d.digits).length + d.exponent
  if d.digits = 0 || magnitude < 300 then false
  else if magnitude > 320 then true
  else if d.exponent ≥ 0 then overflow ≤ d.digits * Nat.pow 10 d.exponent.toNat
  else overflow * Nat.pow 10 (-d.exponent).toNat ≤ d.digits

end Decimal

/-- An exponent behind its letter. -/
def exponent? (cs : List Char) : Option Int :=
  let (negative, cs) := splitSign cs
  (digits? Char.isDigit cs).map fun digits =>
    let n : Int := valueIn 10 digits
    if negative then -n else n

def isExponentMark (c : Char) : Bool := c == 'e' || c == 'E'

/-- A whole number with a fraction or an exponent or both. -/
def float? (cs : List Char) : Option Decimal := do
  let (negative, cs) := splitSign cs
  let whole ← wholeDigits? (cs.takeWhile fun c => c != '.' && !isExponentMark c)
  let (fraction, cs) ← match cs.dropWhile fun c => c != '.' && !isExponentMark c with
    | '.' :: cs =>
      let fraction ← digits? Char.isDigit (cs.takeWhile fun c => !isExponentMark c)
      pure (fraction, cs.dropWhile fun c => !isExponentMark c)
    | [] => none
    | cs => pure ([], cs)
  let exponent ← match cs with
    | [] => pure 0
    | _ :: cs => exponent? cs
  return ⟨negative, valueIn 10 (whole ++ fraction), exponent - fraction.length⟩

/-- A floating-point number that is not finite by name. -/
def isSpecial (cs : List Char) : Bool :=
  let (_, name) := splitSign cs
  name == ['i', 'n', 'f'] || name == ['n', 'a', 'n']

/-- Is this a floating-point number? A number that is too large counts as minus infinity if it
is negative, and as none if it is positive. -/
def isFloat (cs : List Char) : Bool :=
  isSpecial cs || match float? cs with
    | some d => d.negative || !d.isInfinite
    | none => false

end Rebuild.Toml
