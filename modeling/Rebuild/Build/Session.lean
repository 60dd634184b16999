import Rebuild.Build.Diagnostic
import Rebuild.Build.Options
import Rebuild.Build.Queue
import Rebuild.Dependency.Cache
import Rebuild.FileTree.Edit
import Rebuild.Workspace.Sources

/-!
The state between and during builds, and what can happen to it from outside: edits, deletions
and cancellation, which may also arrive while a file is being compiled.
-/
namespace Rebuild.Build

/-- The result of a build. -/
structure Outcome where
  /-- The files that were compiled, one entry for each success. -/
  compiled : List FileId
  /-- The files that stay queued because they failed. -/
  failed : List FileId
  /-- The build stopped early, and the rest of the work stays queued. -/
  interrupted : Bool
  deriving DecidableEq, Repr

def Outcome.succeeded (o : Outcome) : Bool := o.failed.isEmpty && !o.interrupted

/-- Files, projects, dependencies and the queue. `τ` is the type of parse trees. -/
structure Session (τ : Type) where
  tree : FileTree
  workspace : Workspace
  cache : Dependency.Cache Classpath τ
  options : Options := {}
  queue : Queue := {}
  /-- The diagnostics of the files that have any. -/
  diagnostics : Dict FileId (List Diagnostic) := .empty
  /-- The last build stopped early. -/
  interrupted : Bool := false
  lastBuild : Option Outcome := none
  /-- The running build is to stop before the next file. -/
  cancelled : Bool := false

/-- What happens outside the scheduler. -/
inductive Event where
  | write (path : Path) (data : List UInt8)
  | makeDirectory (path : Path)
  /-- Deletes a file, or a directory with all that is in it. -/
  | delete (path : Path)
  /-- Deletes a regular file only. -/
  | deleteFile (path : Path)
  /-- Gives a path its number. -/
  | register (path : Path)
  | markDirty (path : Path)
  | markAllDirty
  | removeFile (path : Path)
  | cancel
  deriving Repr

namespace Session

variable {τ : Type}

def needsBuild (s : Session τ) : Bool := !s.queue.isEmpty

def diagnosticsOf (s : Session τ) (file : FileId) : List Diagnostic :=
  (s.diagnostics.get? file).getD []

/-- The number of a file, a new one if it has none. -/
def register (s : Session τ) (p : Path) : FileId × Session τ :=
  let (file, workspace) := s.workspace.fileId p
  (file, { s with workspace })

/-- Queues a file after an edit. -/
def markDirty (s : Session τ) (p : Path) : FileId × Session τ :=
  let (file, s) := s.register p
  (file, { s with cache := s.cache.markStale file, queue := s.queue.enqueue file })

/-- Queues some files, one after the other. -/
def markEach (s : Session τ) (files : List Path) : Session τ :=
  files.foldl (fun s p => (s.markDirty p).2) s

/-- Queues every source file of the workspace; yields their number. -/
def markAllDirty (s : Session τ) : Nat × Session τ :=
  let files := s.workspace.sourceFiles s.tree
  (files.length, s.markEach files)

def deleteFiles (t : FileTree) (files : List Path) : FileTree := files.foldl FileTree.deleteFile t

/-- Forgets the type that a source file defines, so that it is looked up afresh. -/
def evictSource (s : Session τ) (p : Path) : Session τ :=
  match s.workspace.typeOfSource? p with
  | some binary => { s with cache := s.cache.evict binary }
  | none => s

/-- A source file is gone: its artifacts are deleted, what is known of it is forgotten, and the
files that depended on it, which it yields, are queued. -/
def removeFile (s : Session τ) (p : Path) : FileSet × Session τ :=
  let (file, s) := s.register p
  let s := { s with tree := deleteFiles s.tree (s.workspace.artifactsForSource s.tree p) }
  let s := s.evictSource p
  let dependents := s.cache.dependents file
  (dependents, { s with
    cache := s.cache.removeFile file
    queue := (s.queue.remove file).enqueueAll dependents
    diagnostics := s.diagnostics.erase file })

def apply (s : Session τ) : Event → Session τ
  | .write p data => { s with tree := s.tree.write p (.bytes data) }
  | .makeDirectory p => { s with tree := (s.tree.makeDirectory p).2 }
  | .delete p => { s with tree := (s.tree.delete p).2 }
  | .deleteFile p => { s with tree := s.tree.deleteFile p }
  | .register p => (s.register p).2
  | .markDirty p => (s.markDirty p).2
  | .markAllDirty => s.markAllDirty.2
  | .removeFile p => (s.removeFile p).2
  | .cancel => { s with cancelled := true }

/-- Events one after the other. -/
def applyAll (s : Session τ) (events : List Event) : Session τ := events.foldl apply s

end Session

end Rebuild.Build
