import Rebuild.Text.Basic

/-!
How much is logged.
-/
namespace Rebuild

inductive Level where
  | off
  | error
  | warn
  | info
  | debug
  | trace
  deriving DecidableEq, Repr

namespace Level

def name : Level → String
  | off => "off"
  | error => "error"
  | warn => "warn"
  | info => "info"
  | debug => "debug"
  | trace => "trace"

/-- All levels, from the quietest to the most verbose. -/
def all : List Level := [off, error, warn, info, debug, trace]

/-- The level with a name, in letters of either case. -/
def ofName? (text : String) : Option Level :=
  all.find? fun l => l.name == Text.asciiLower text

/-- The level with a number, which may have a plus sign and zeros in front. -/
def ofNumber? (text : String) : Option Level :=
  let digits := match text.toList with
    | '+' :: rest => rest
    | digits => digits
  if digits ≠ [] && digits.all Char.isDigit then
    all[digits.foldl (fun n c => 10 * n + (c.toNat - '0'.toNat)) 0]?
  else none

/-- The level with a name or a number. -/
def ofText? (text : String) : Option Level := (ofNumber? text).or (ofName? text)

/-- The place in the order from the quietest to the most verbose, which is the number of the
level. -/
def rank : Level → Nat
  | off => 0
  | error => 1
  | warn => 2
  | info => 3
  | debug => 4
  | trace => 5

theorem all_getElem?_rank (l : Level) : all[l.rank]? = some l := by cases l <;> rfl

/-- The more verbose of two levels. -/
def max (a b : Level) : Level := if a.rank < b.rank then b else a

end Level

end Rebuild
