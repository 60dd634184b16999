import Rebuild.Path

/-!
What a compiler has to say about a source file.
-/
namespace Rebuild.Build

structure Position where
  line : Nat
  character : Nat
  deriving DecidableEq, Repr

structure Range where
  start : Position
  stop : Position
  deriving DecidableEq, Repr

namespace Range

/-- The empty range at the front of a file. -/
def zero : Range := ⟨⟨0, 0⟩, ⟨0, 0⟩⟩

end Range

inductive Severity where
  | error
  | warning
  | information
  | hint
  deriving DecidableEq, Repr

structure Diagnostic where
  file : Path
  range : Range
  severity : Severity
  message : String
  /-- Who says so. -/
  source : Option String
  deriving Repr

namespace Diagnostic

def isError (d : Diagnostic) : Bool := d.severity == .error

end Diagnostic

end Rebuild.Build
