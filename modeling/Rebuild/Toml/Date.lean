import Rebuild.Toml.Number

/-!
Dates and times in TOML.
-/
namespace Rebuild.Toml

structure Date where
  year : Nat
  month : Nat
  day : Nat
  deriving DecidableEq, Repr

/-- A time of day. Seconds may be leap seconds. -/
structure Time where
  hour : Nat
  minute : Nat
  second : Nat
  nanos : Nat
  deriving DecidableEq, Repr

/-- What local time is ahead of universal time, in minutes. `z` is the spelling of no offset by
its letter. -/
inductive Offset where
  | z
  | minutes (ahead : Int)
  deriving DecidableEq, Repr

/-! ## Reading -/

/-- A number of as many digits as the text has. -/
def number? (digits : List Char) : Option Nat :=
  if digits.all Char.isDigit then some (valueIn 10 digits) else none

def isLeap (year : Nat) : Bool := year % 4 == 0 && (year % 100 != 0 || year % 400 == 0)

def daysIn (year month : Nat) : Nat :=
  match month with
  | 2 => if isLeap year then 29 else 28
  | 4 | 6 | 9 | 11 => 30
  | _ => 31

/-- A date and what follows it. -/
def date? : List Char → Option (Date × List Char)
  | y1 :: y2 :: y3 :: y4 :: '-' :: m1 :: m2 :: '-' :: d1 :: d2 :: rest => do
    let year ← number? [y1, y2, y3, y4]
    let month ← number? [m1, m2]
    let day ← number? [d1, d2]
    if 1 ≤ month && month ≤ 12 && 1 ≤ day && day ≤ daysIn year month then
      some (⟨year, month, day⟩, rest)
    else none
  | _ => none

/-- The nanoseconds of a fraction of a second. Digits beyond the ninth are dropped. -/
def nanosOf (digits : List Char) : Nat :=
  let kept := digits.take 9
  valueIn 10 kept * Nat.pow 10 (9 - kept.length)

def fraction? : List Char → Option (Nat × List Char)
  | '.' :: cs =>
    let digits := cs.takeWhile Char.isDigit
    if digits = [] then none else some (nanosOf digits, cs.dropWhile Char.isDigit)
  | cs => some (0, cs)

/-- A time of day and what follows it. -/
def time? : List Char → Option (Time × List Char)
  | h1 :: h2 :: ':' :: m1 :: m2 :: ':' :: s1 :: s2 :: rest => do
    let hour ← number? [h1, h2]
    let minute ← number? [m1, m2]
    let second ← number? [s1, s2]
    let (nanos, rest) ← fraction? rest
    if hour ≤ 23 && minute ≤ 59 && second ≤ 60 then some (⟨hour, minute, second, nanos⟩, rest)
    else none
  | _ => none

/-- All of a text as an offset; the empty text is none. -/
def offset? : List Char → Option (Option Offset)
  | [] => some none
  | ['Z'] | ['z'] => some (some .z)
  | [sign, h1, h2, ':', m1, m2] => do
    let hours ← number? [h1, h2]
    let minutes ← number? [m1, m2]
    if (sign == '+' || sign == '-') && hours ≤ 23 && minutes ≤ 59 then
      let ahead : Int := hours * 60 + minutes
      some (some (.minutes (if sign == '-' then -ahead else ahead)))
    else none
  | _ => none

def isDateMark (c : Char) : Bool := c == 'T' || c == 't' || c == ' '

/-! ## Canonical spelling -/

/-- A number with at least `width` digits. -/
def padded (width n : Nat) : List Char :=
  let digits := Nat.toDigits 10 n
  List.replicate (width - digits.length) '0' ++ digits

def Date.spell (d : Date) : List Char :=
  padded 4 d.year ++ '-' :: padded 2 d.month ++ '-' :: padded 2 d.day

/-- A fraction without zeros at its end; none of zero. -/
def fractionText (nanos : Nat) : List Char :=
  if nanos = 0 then [] else '.' :: ((padded 9 nanos).reverse.dropWhile (· = '0')).reverse

def Time.spell (t : Time) : List Char :=
  padded 2 t.hour ++ ':' :: padded 2 t.minute ++ ':' :: padded 2 t.second ++ fractionText t.nanos

def Offset.spell : Offset → List Char
  | .z => ['Z']
  | .minutes ahead =>
    (if ahead < 0 then '-' else '+') :: padded 2 (ahead.natAbs / 60) ++ ':' ::
      padded 2 (ahead.natAbs % 60)

/-- The canonical spelling of a date, a date with a time, or a time, which is all of a text.
Only a date with a time can have an offset. -/
def spellDate? (cs : List Char) : Option (List Char) :=
  match date? cs with
  | some (date, []) => some date.spell
  | some (date, mark :: rest) => do
    let (time, rest) ← time? rest
    let offset ← offset? rest
    if isDateMark mark then
      some (date.spell ++ 'T' :: time.spell ++ (offset.map Offset.spell).getD [])
    else none
  | none => match time? cs with
    | some (time, []) => some time.spell
    | _ => none

end Rebuild.Toml
