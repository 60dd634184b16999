import Rebuild.Build.Session

/-!
Compilers as the scheduler sees them.
-/
namespace Rebuild.Build

/-- What a compiler is told of a source file. -/
structure CompileRequest where
  file : FileId
  path : Path
  project : Project
  /-- The class path of the project, its own build root first. -/
  classpath : List ClasspathEntry

/-- Artifacts are written at or below this path. -/
def CompileRequest.buildRoot (r : CompileRequest) : Path := r.project.buildRoot

inductive CompileStatus where
  | success
  /-- Failed for a reason that a later pass may mend, such as a missing dependency. -/
  | retryable
  /-- The source is at fault. -/
  | fatal
  deriving DecidableEq, Repr

structure CompileOutput where
  status : CompileStatus
  /-- The artifacts written, those of nested types with them. -/
  artifacts : List Path := []
  diagnostics : List Diagnostic := []

/-- What a call of a compiler brings about: what happened while it ran, in order, what it
answers, and its own state afterwards. -/
structure Compiled (σ : Type) where
  events : List Event
  output : CompileOutput
  tool : σ

/-- A compiler with states of type `σ`. It sees the session as it stands when it is called. -/
structure Compiler (σ τ : Type) where
  compile : CompileRequest → Session τ → σ → Compiled σ

end Rebuild.Build
