import Rebuild.Build.LineCompiler

/-!
A compiler that can be told what to do, to try the scheduler out: sources may hold a script of
answers instead of directives, and events can be planned for certain calls.
-/
namespace Rebuild.Build

/-- The answer to one call. -/
structure ScriptEntry where
  status : CompileStatus
  /-- The artifacts to write, by internal name. -/
  classes : List (String × List UInt8)
  /-- The artifacts to report instead of those written. -/
  report : Option (List Path)
  diagnostics : List Diagnostic

/-- Events planned for calls on a path. -/
structure Hook where
  path : Path
  /-- The call on this path, counted from one; all of them if it is absent. -/
  turn : Option Nat
  /-- The events come after the compilation instead of before it. -/
  after : Bool
  events : List Event

namespace Hook

/-- Is the hook due before or after the `n`-th call on a path? -/
def isDue (h : Hook) (p : Path) (n : Nat) (after : Bool) : Bool :=
  h.path.text == p.text && h.after == after && h.turn.getD n == n

end Hook

/-- What the compiler follows. -/
structure Script where
  hooks : List Hook
  /-- The answers in the text of a source, first call first; none in a text of directives. -/
  entries : Path → String → List ScriptEntry

namespace Script

variable {τ : Type}

def eventsAt (script : Script) (p : Path) (n : Nat) (after : Bool) : List Event :=
  (script.hooks.filter fun h => h.isDue p n after).flatMap Hook.events

/-- Follows one answer. Only a success reports artifacts. -/
def follow (r : CompileRequest) (entry : ScriptEntry) : List Event × CompileOutput :=
  let written := entry.classes.map fun (internal, data) =>
    (LineCompiler.artifactPath r internal, data)
  let artifacts := if entry.status = .success then
      entry.report.getD (written.map Prod.fst)
    else []
  (written.map fun (p, data) => .write p data, ⟨entry.status, artifacts, entry.diagnostics⟩)

/-- The `n`-th call on a source. The last answer of a script goes on for ever. -/
def answer (script : Script) (r : CompileRequest) (s : Session τ) (n : Nat) :
    List Event × CompileOutput :=
  let entries := script.entries r.path ((s.tree.readText r.path).toOption.getD "")
  match entries[min n entries.length - 1]? with
  | some entry => follow r entry
  | none => LineCompiler.compile r s

end Script

/-- Follows a script. Its state is how often each path was compiled. -/
def scriptedCompiler (script : Script) : Compiler (Dict String Nat) τ where
  compile r s calls :=
    let n := (calls.get? r.path.text).getD 0 + 1
    let before := script.eventsAt r.path n false
    let (written, output) := script.answer r (s.applyAll before) n
    ⟨before ++ written ++ script.eventsAt r.path n true, output, calls.put r.path.text n⟩

end Rebuild.Build
