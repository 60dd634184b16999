import Rebuild.Build.Compiler
import Rebuild.Build.Order

/-!
The scheduler. A build goes over the queue in passes until only failed files are left. A file
whose declarations changed brings the files that depend on it back into the queue; what happens
during a compilation is taken up by a later pass.
-/
namespace Rebuild.Build

/-- A call of the compiler. -/
structure Attempt where
  file : FileId
  status : CompileStatus
  deriving DecidableEq, Repr

/-- Why a build gave up. -/
inductive BuildError where
  /-- A queued number that belongs to no path. -/
  | noPath (file : FileId)
  | noCycle (error : Order.NoCycle)
  | workspace (error : WorkspaceError)
  deriving DecidableEq, Repr

/-- A build on its way. `σ` is the type of the states of the compiler. -/
structure Running (σ τ : Type) where
  session : Session τ
  tool : σ
  attempts : List Attempt := []
  compiled : List FileId := []
  /-- How many calls of the compiler were to be tried again. -/
  retries : Nat := 0
  /-- The diagnostics of the files that are to be tried again. -/
  retryDiagnostics : Dict FileId (List Diagnostic) := .empty
  interrupted : Bool := false

/-- What a finished build yields. -/
structure Report where
  outcome : Outcome
  attempts : List Attempt

variable {σ τ : Type}

namespace Session

/-! ## Successful compilations -/

/-- Deletes the artifacts of a source file that were not produced again. -/
def removeStale (s : Session τ) (p : Path) (produced : List Path) : Session τ :=
  let artifacts := s.workspace.artifactsForSource s.tree p
  let stale := artifacts.filter fun artifact => !produced.any artifact.same
  let removed := { s with tree := deleteFiles s.tree stale }
  if stale.any s.tree.isFile then removed.evictSource p else removed

/-- A file without diagnostics has no entry. -/
def setDiagnostics (s : Session τ) (file : FileId) (found : List Diagnostic) : Session τ :=
  { s with diagnostics :=
      if found.isEmpty then s.diagnostics.erase file else s.diagnostics.put file found }

/-- Recomputes what is known of a file from its artifacts. -/
def updateDependencies (s : Session τ) (file : FileId) (project : String)
    (artifacts : List Path) : Dependency.Update × Session τ :=
  let read (p : Path) := (s.tree.read p).toOption
  let sources : Dependency.SourceMap Workspace := Workspace.fileForTypeIn s.tree project
  let (update, cache, workspace) :=
    s.cache.update (Classpath.finder s.tree) read sources file artifacts s.workspace
  (update, { s with cache, workspace })

/-- The artifacts of a successful compilation, those in place if it reports none. What it did not
produce again is deleted. -/
def takeArtifacts (s : Session τ) (p : Path) (output : CompileOutput) :
    List Path × Session τ :=
  if output.artifacts.isEmpty then (s.workspace.artifactsForSource s.tree p, s)
  else (output.artifacts, s.removeStale p output.artifacts)

/-- Learns from the artifacts of a successful compilation. -/
def learn (s : Session τ) (file : FileId) (p : Path) (project : String)
    (output : CompileOutput) : Dependency.Update × Session τ :=
  let (artifacts, s) := s.takeArtifacts p output
  s.updateDependencies file project artifacts

/-- Takes in a successful compilation of a file that is still queued. -/
def acceptSuccess (s : Session τ) (file : FileId) (p : Path) (project : String)
    (output : CompileOutput) : Session τ :=
  let (update, s) := s.learn file p project output
  let s := { s with queue := s.queue.complete file }
  let s := s.setDiagnostics file output.diagnostics
  if update.declarationsChanged then
    { s with queue := s.queue.enqueueAll (s.cache.dependents file) }
  else s

/-- Takes in a successful compilation. If the file was removed meanwhile, what was written for
it is deleted. An edit that arrived meanwhile keeps the file queued. -/
def onSuccess (s : Session τ) (file : FileId) (p : Path) (project : String)
    (output : CompileOutput) : Session τ :=
  if s.queue.contains file then s.acceptSuccess file p project output
  else { s with tree := deleteFiles s.tree output.artifacts }

/-- The state of a queued file that is being compiled changes, unless an event changed it. -/
def conclude (s : Session τ) (file : FileId) (state : EntryState) : Session τ :=
  { s with queue := s.queue.advance file .compiling state }

/-- Takes in a compilation that failed for good. -/
def onFatal (s : Session τ) (file : FileId) (output : CompileOutput) : Session τ :=
  { s.conclude file .failed with diagnostics := s.diagnostics.put file output.diagnostics }

/-! ## Calls of the compiler -/

/-- A planned file leaves the waiting ones. -/
def take (s : Session τ) (file : FileId) : Session τ :=
  { s with queue := s.queue.setState file .compiling }

/-- A file is not to be compiled after all. -/
def drop (s : Session τ) (file : FileId) : Session τ := { s with queue := s.queue.remove file }

/-- What the compiler is told of a file. There is nothing to tell of one in no project. -/
def request (s : Session τ) (file : FileId) :
    Except BuildError (Option (CompileRequest × Session τ)) :=
  match s.workspace.files.path? file with
  | none => .error (.noPath file)
  | some path =>
    match s.workspace.projectForSource? path with
    | none => .ok none
    | some project =>
      match (Workspace.classpath project.name).run s.workspace with
      | .error e => .error (.workspace e)
      | .ok (classpath, workspace) =>
        .ok (some ({ file, path, project, classpath }, { s with workspace }))

/-- Takes in the answer of the compiler. -/
def settle (s : Session τ) (request : CompileRequest) (output : CompileOutput) : Session τ :=
  match output.status with
  | .success => s.onSuccess request.file request.path request.project.name output
  | .retryable => s.conclude request.file .retrying
  | .fatal => s.onFatal request.file output

end Session

namespace Running

/-- Takes in the answer of the compiler. -/
def settle (r : Running σ τ) (request : CompileRequest) (output : CompileOutput) :
    Running σ τ :=
  let file := request.file
  let r := { r with session := r.session.settle request output }
  match output.status with
  | .success => { r with
      compiled := r.compiled ++ [file], retryDiagnostics := r.retryDiagnostics.erase file }
  | .retryable => { r with
      retries := r.retries + 1
      retryDiagnostics := r.retryDiagnostics.put file output.diagnostics
      interrupted := r.interrupted || r.retries + 1 ≥ r.session.options.maxErrorCount }
  | .fatal => { r with retryDiagnostics := r.retryDiagnostics.erase file }

/-- Calls the compiler, up to its answer. -/
def invoke (compiler : Compiler σ τ) (r : Running σ τ) (request : CompileRequest) :
    CompileOutput × Running σ τ :=
  let result := compiler.compile request r.session r.tool
  (result.output, { r with
    session := r.session.applyAll result.events
    tool := result.tool
    attempts := r.attempts ++ [⟨request.file, result.output.status⟩] })

/-- Calls the compiler and takes in what it brings about. -/
def call (compiler : Compiler σ τ) (r : Running σ τ) (request : CompileRequest) : Running σ τ :=
  let (output, r) := r.invoke compiler request
  r.settle request output

/-- Compiles a file. One that lies in no project is dropped from the queue. -/
def compileFile (compiler : Compiler σ τ) (r : Running σ τ) (file : FileId) :
    Except BuildError (Running σ τ) :=
  match r.session.request file with
  | .error e => .error e
  | .ok none => .ok { r with session := r.session.drop file }
  | .ok (some (request, session)) => .ok ({ r with session }.call compiler request)

/-! ## Passes -/

/-- Compiles the planned files that still wait, until the build is to stop. -/
def pass (compiler : Compiler σ τ) : List FileId → Running σ τ → Except BuildError (Running σ τ)
  | [], r => .ok r
  | file :: rest, r =>
    if r.session.cancelled then .ok { r with interrupted := true }
    else if r.session.queue.isDue file then
      match { r with session := r.session.take file }.compileFile compiler file with
      | .error e => .error e
      | .ok r => if r.interrupted then .ok r else pass compiler rest r
    else pass compiler rest r

/-- The order of a pass. A small one goes in the order of the queue. -/
def plan (s : Session τ) (runnable : List FileId) : Except BuildError (List FileId) :=
  if runnable.length ≤ s.options.sortThreshold then .ok runnable
  else (Order.topological runnable s.cache.dependencies s.options.cycleProbeLimit).mapError
    BuildError.noCycle

/-- Passes until nothing is left to compile or the build is to stop; nothing if `n` passes do
not suffice. -/
def passes (compiler : Compiler σ τ) : (n : Nat) → Running σ τ →
    Option (Except BuildError (Running σ τ))
  | 0, _ => none
  | n + 1, r =>
    match r.session.queue.runnable with
    | [] => some (.ok r)
    | runnable =>
      match plan r.session runnable with
      | .error e => some (.error e)
      | .ok order =>
        match pass compiler order r with
        | .error e => some (.error e)
        | .ok r => if r.interrupted then some (.ok r) else passes compiler n r

/-- An interrupted build shows why files that stay queued were to be tried again. -/
def showRetries (r : Running σ τ) : Session τ :=
  if r.interrupted then
    r.retryDiagnostics.entries.foldl (fun s e =>
      if s.queue.contains e.1 then { s with diagnostics := s.diagnostics.put e.1 e.2 } else s)
      r.session
  else r.session

def finish (r : Running σ τ) : Report × Session τ :=
  let s := r.showRetries
  let outcome := ⟨r.compiled, s.queue.failed, r.interrupted⟩
  (⟨outcome, r.attempts⟩,
    { s with interrupted := outcome.interrupted, lastBuild := some outcome })

end Running

namespace Session

/-- The session as a build starts: what failed before is tried again. -/
def start (s : Session τ) (cancelled : Bool) : Session τ :=
  { s with queue := s.queue.resetFailed, interrupted := false, cancelled }

/-- Compiles the queued files until the queue holds only failed ones, the build is cancelled,
or too many calls are to be tried again. Nothing if `n` passes do not suffice. -/
def build (compiler : Compiler σ τ) (n : Nat) (cancelled : Bool) (s : Session τ) (tool : σ) :
    Option (Except BuildError (Report × Session τ × σ)) :=
  (Running.passes compiler n { session := s.start cancelled, tool }).map fun result =>
    result.map fun r =>
      let (report, s) := r.finish
      (report, s, r.tool)

end Session

end Rebuild.Build
