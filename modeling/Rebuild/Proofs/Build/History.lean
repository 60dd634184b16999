import Mathlib
import Rebuild.Build.Scheduler

/-! The history of a session: what happened, moment by moment, with the session before and after.
The moments of a build are told along its passes, and the steps say in which order moments can
follow each other. -/
namespace Rebuild.Build

/-- What happens to a session. -/
inductive Happening where
  | event (e : Event)
  | started (cancelled : Bool)
  /-- The turn of a planned file has come. -/
  | taken (file : FileId)
  /-- The file lies in no project. -/
  | dropped (file : FileId)
  | called (request : CompileRequest)
  /-- The compiler has answered. -/
  | settled (request : CompileRequest) (output : CompileOutput)
  | finished
  /-- The build gave up. -/
  | failed (error : BuildError)

structure Moment (τ : Type) where
  happening : Happening
  before : Session τ
  after : Session τ

variable {σ τ : Type}

/-- A successful compilation of a queued file after which others see other declarations. -/
def Session.Changes (s : Session τ) (request : CompileRequest) (output : CompileOutput) : Prop :=
  output.status = .success ∧ s.queue.contains request.file ∧
    (s.learn request.file request.path request.project.name output).1.declarationsChanged

namespace Moment

/-- The file whose compilation begins. -/
def called? (m : Moment τ) : Option FileId :=
  match m.happening with
  | .called request => some request.file
  | _ => none

/-- The event from outside the scheduler. -/
def event? (m : Moment τ) : Option Event :=
  match m.happening with
  | .event e => some e
  | _ => none

def Calls (m : Moment τ) (file : FileId) : Prop := m.called? = some file

def Succeeds (m : Moment τ) (file : FileId) : Prop :=
  ∃ request output, m.happening = .settled request output ∧ request.file = file ∧
    output.status = .success

def Removes (m : Moment τ) (file : FileId) : Prop :=
  ∃ p, m.happening = .event (.removeFile p) ∧ (m.before.register p).1 = file

/-- A compilation of the file succeeds and reports changed declarations. -/
def Changes (m : Moment τ) (file : FileId) : Prop :=
  ∃ request output, m.happening = .settled request output ∧ request.file = file ∧
    m.before.Changes request output

/-- The file is put in the queue: after an edit, as a source file of the workspace, since a file
that it depends on is removed, or since the declarations of such a file changed. -/
def Enqueues (m : Moment τ) (file : FileId) : Prop :=
  (∃ p, m.happening = .event (.markDirty p) ∧ (m.before.markDirty p).1 = file) ∨
  (m.happening = .event .markAllDirty ∧
    ∃ p ∈ m.before.workspace.sourceFiles m.before.tree,
      m.after.workspace.files.id? p = some file) ∨
  (∃ p, m.happening = .event (.removeFile p) ∧ file ∈ (m.before.removeFile p).1) ∨
  ∃ g, m.Changes g ∧ file ∈ m.after.cache.dependents g

end Moment

/-- The files whose compilations begin, in order. -/
def calledFiles (moments : List (Moment τ)) : List FileId := moments.filterMap Moment.called?

/-- The session after some moments. -/
def lastSession (s : Session τ) (moments : List (Moment τ)) : Session τ :=
  (moments.getLast?.map Moment.after).getD s

@[simp] theorem lastSession_cons (s : Session τ) (m : Moment τ) (rest : List (Moment τ)) :
    lastSession s (m :: rest) = lastSession m.after rest := by
  simp only [lastSession, List.getLast?_cons]
  cases rest.getLast? <;> rfl

theorem calledFiles_cons (m : Moment τ) (rest : List (Moment τ)) :
    calledFiles (m :: rest) = m.called?.toList ++ calledFiles rest := by
  unfold calledFiles
  rw [List.filterMap_cons]
  cases m.called? <;> rfl

theorem calledFiles_append (moments more : List (Moment τ)) :
    calledFiles (moments ++ more) = calledFiles moments ++ calledFiles more :=
  List.filterMap_append

theorem mem_calledFiles {moments : List (Moment τ)} {file : FileId} :
    file ∈ calledFiles moments ↔ ∃ m ∈ moments, m.Calls file :=
  List.mem_filterMap

/-! ## Moments of a build -/

def Session.eventMoments (s : Session τ) : List Event → List (Moment τ)
  | [] => []
  | e :: rest => ⟨.event e, s, s.apply e⟩ :: (s.apply e).eventMoments rest

namespace Running

/-- A call of the compiler that finds the session as `opened`. -/
def callMoments (compiler : Compiler σ τ) (r : Running σ τ) (request : CompileRequest)
    (opened : Session τ) : List (Moment τ) :=
  let result := compiler.compile request opened r.tool
  let returned := opened.applyAll result.events
  ⟨.called request, r.session, opened⟩ :: (opened.eventMoments result.events ++
    [⟨.settled request result.output, returned, returned.settle request result.output⟩])

def compileMoments (compiler : Compiler σ τ) (r : Running σ τ) (file : FileId) :
    List (Moment τ) :=
  match r.session.request file with
  | .error _ => []
  | .ok none => [⟨.dropped file, r.session, r.session.drop file⟩]
  | .ok (some (request, opened)) => r.callMoments compiler request opened

def passMoments (compiler : Compiler σ τ) : List FileId → Running σ τ → List (Moment τ)
  | [], _ => []
  | file :: rest, r =>
    if r.session.cancelled then []
    else if r.session.queue.isDue file then
      let taken := { r with session := r.session.take file }
      ⟨.taken file, r.session, taken.session⟩ :: (taken.compileMoments compiler file ++
        match taken.compileFile compiler file with
        | .error _ => []
        | .ok r => if r.interrupted then [] else passMoments compiler rest r)
    else passMoments compiler rest r

def passesMoments (compiler : Compiler σ τ) : Nat → Running σ τ → List (Moment τ)
  | 0, _ => []
  | n + 1, r =>
    match r.session.queue.runnable with
    | [] => []
    | runnable =>
      match plan r.session runnable with
      | .error _ => []
      | .ok order => r.passMoments compiler order ++
        match pass compiler order r with
        | .error _ => []
        | .ok r => if r.interrupted then [] else passesMoments compiler n r

end Running

namespace Session

/-- What a build does up to its end. -/
def workMoments (compiler : Compiler σ τ) (n : Nat) (cancelled : Bool) (s : Session τ)
    (tool : σ) : List (Moment τ) :=
  Running.passesMoments compiler n { session := s.start cancelled, tool }

/-- The moments of a build. One that `n` passes do not suffice for has no end. -/
def buildMoments (compiler : Compiler σ τ) (n : Nat) (cancelled : Bool) (s : Session τ)
    (tool : σ) : List (Moment τ) :=
  let work := s.workMoments compiler n cancelled tool
  let reached := lastSession (s.start cancelled) work
  ⟨.started cancelled, s, s.start cancelled⟩ :: (work ++
    match s.build compiler n cancelled tool with
    | none => []
    | some (.error e) => [⟨.failed e, reached, reached⟩]
    | some (.ok (_, s, _)) => [⟨.finished, reached, s⟩])

end Session

/-! ## Histories -/

/-- What is asked of a session between builds. Each build may have another compiler. -/
inductive Command (σ τ : Type) where
  | event (e : Event)
  | build (compiler : Compiler σ τ) (n : Nat) (cancelled : Bool) (tool : σ)

namespace Command

def moments (s : Session τ) : Command σ τ → List (Moment τ)
  | .event e => [⟨.event e, s, s.apply e⟩]
  | .build compiler n cancelled tool => s.buildMoments compiler n cancelled tool

/-- Does the command come to an end? -/
def returns (s : Session τ) : Command σ τ → Bool
  | .event _ => true
  | .build compiler n cancelled tool => (s.build compiler n cancelled tool).isSome

end Command

/-- All that happens, up to a build that does not return. -/
def history (s : Session τ) : List (Command σ τ) → List (Moment τ)
  | [] => []
  | command :: rest =>
    let moments := command.moments s
    if command.returns s then moments ++ history (lastSession s moments) rest else moments

/-- A session to which nothing has happened. -/
def Session.new (tree : FileTree) (workspace : Workspace) (table : Table Classpath)
    (systemPrefixes : List String) (options : Options) : Session τ :=
  { tree, workspace, cache := { table, systemPrefixes }, options }

/-- One project without libraries, and no files. -/
def Session.sample : Session τ :=
  let project : Project := { name := "app", sourceRoot := ⟨"src"⟩, buildRoot := ⟨"out"⟩ }
  Session.new {} { projects := ⟨[("app", project)]⟩ } { finder := ⟨project.ownClasspath, .empty⟩ }
    [] {}

def Session.after (s : Session τ) (commands : List (Command σ τ)) : Session τ :=
  lastSession s (history s commands)

theorem history_event (s : Session τ) (e : Event) (rest : List (Command σ τ)) :
    history s (.event e :: rest) = ⟨.event e, s, s.apply e⟩ :: history (s.apply e) rest := rfl

theorem history_events (s : Session τ) (events : List Event) (rest : List (Command σ τ)) :
    history s (events.map .event ++ rest) =
      s.eventMoments events ++ history (s.applyAll events) rest := by
  induction events generalizing s with
  | nil => rfl
  | cons e events ih =>
    rw [List.map_cons, List.cons_append, history_event, ih]
    rfl

/-! ## Steps -/

/-- Where the scheduler is between two moments. -/
inductive Phase where
  | idle
  | building
  /-- The file was taken, and the compiler not yet called. -/
  | opening (file : FileId)
  | compiling (request : CompileRequest)

/-- The steps within a build. Events come while the compiler runs. -/
inductive Work : Phase → Moment τ → Phase → Prop where
  | taken {s : Session τ} {file : FileId} (h : s.queue.isDue file) :
      Work .building ⟨.taken file, s, s.take file⟩ (.opening file)
  | dropped {s : Session τ} {file : FileId} (h : s.request file = .ok none) :
      Work (.opening file) ⟨.dropped file, s, s.drop file⟩ .building
  | called {s t : Session τ} {file : FileId} {request : CompileRequest}
      (h : s.request file = .ok (some (request, t))) :
      Work (.opening file) ⟨.called request, s, t⟩ (.compiling request)
  | event (request : CompileRequest) (s : Session τ) (e : Event) :
      Work (.compiling request) ⟨.event e, s, s.apply e⟩ (.compiling request)
  | settled (request : CompileRequest) (s : Session τ) (output : CompileOutput) :
      Work (.compiling request) ⟨.settled request output, s, s.settle request output⟩ .building

/-- The steps of a session. The end of a build changes only what is shown. -/
inductive Step : Phase → Moment τ → Phase → Prop where
  | work {p q : Phase} {m : Moment τ} (h : Work p m q) : Step p m q
  | event (s : Session τ) (e : Event) : Step .idle ⟨.event e, s, s.apply e⟩ .idle
  | started (s : Session τ) (cancelled : Bool) :
      Step .idle ⟨.started cancelled, s, s.start cancelled⟩ .building
  | finished (s : Session τ) (diagnostics : Dict FileId (List Diagnostic)) (interrupted : Bool)
      (lastBuild : Option Outcome) :
      Step .building ⟨.finished, s, { s with diagnostics, interrupted, lastBuild }⟩ .idle
  | failed {p : Phase} (hp : p = .building ∨ ∃ file, p = .opening file) (s : Session τ)
      (e : BuildError) : Step p ⟨.failed e, s, s⟩ .idle

/-- Moments that follow each other by steps of a kind, from a phase and a session to others. -/
inductive Chain (R : Phase → Moment τ → Phase → Prop) :
    Phase → Session τ → List (Moment τ) → Phase → Session τ → Prop where
  | nil (p : Phase) (s : Session τ) : Chain R p s [] p s
  | cons {p q last : Phase} {m : Moment τ} {rest : List (Moment τ)} {t : Session τ}
      (h : R p m q) (hrest : Chain R q m.after rest last t) :
      Chain R p m.before (m :: rest) last t

namespace Chain

variable {R : Phase → Moment τ → Phase → Prop} {p q : Phase} {s t : Session τ}
  {moments more : List (Moment τ)}

theorem append (h : Chain R p s moments q t) {last : Phase} {u : Session τ}
    (hmore : Chain R q t more last u) : Chain R p s (moments ++ more) last u := by
  induction h with
  | nil => exact hmore
  | cons h _ ih => exact .cons h (ih hmore)

theorem split (h : Chain R p s (moments ++ more) q t) :
    ∃ middle u, Chain R p s moments middle u ∧ Chain R middle u more q t := by
  induction moments generalizing p s with
  | nil => exact ⟨p, s, .nil p s, h⟩
  | cons m rest ih =>
    cases h with
    | cons h hrest =>
      obtain ⟨middle, u, hfirst, hsecond⟩ := ih hrest
      exact ⟨middle, u, .cons h hfirst, hsecond⟩

theorem split_cons {m : Moment τ} (h : Chain R p s (moments ++ m :: more) q t) :
    ∃ middle next, Chain R p s moments middle m.before ∧ R middle m next ∧
      Chain R next m.after more q t := by
  obtain ⟨middle, u, hfirst, hsecond⟩ := h.split
  cases hsecond with
  | cons hm hmore => exact ⟨middle, _, hfirst, hm, hmore⟩

theorem step_of_mem (h : Chain R p s moments q t) {m : Moment τ} (hm : m ∈ moments) :
    ∃ before next, R before m next := by
  obtain ⟨earlier, later, rfl⟩ := List.append_of_mem hm
  obtain ⟨before, next, -, hstep, -⟩ := h.split_cons
  exact ⟨before, next, hstep⟩

theorem imp {S : Phase → Moment τ → Phase → Prop} (hRS : ∀ {p m q}, R p m q → S p m q)
    (h : Chain R p s moments q t) : Chain S p s moments q t := by
  induction h with
  | nil p s => exact .nil p s
  | cons h _ ih => exact .cons (hRS h) ih

/-- What holds of each moment can be had in each step. -/
theorem restrict {P : Moment τ → Prop} (h : Chain R p s moments q t) (hP : ∀ m ∈ moments, P m) :
    Chain (fun p m q => R p m q ∧ P m) p s moments q t := by
  induction h with
  | nil p s => exact .nil p s
  | @cons _ _ _ m rest _ h _ ih =>
    have hm : P m := hP m (List.mem_cons_self ..)
    exact .cons ⟨h, hm⟩ (ih fun other hother => hP other (List.mem_cons_of_mem m hother))

theorem lastSession_eq (h : Chain R p s moments q t) : lastSession s moments = t := by
  induction h with
  | nil => rfl
  | cons h hrest ih => rw [lastSession_cons, ih]

/-- What each step preserves holds at the end; `seen` are the moments so far. -/
theorem invariant {I : List (Moment τ) → Phase → Session τ → Prop}
    (hstep : ∀ {seen p m q}, R p m q → I seen p m.before → I (seen ++ [m]) q m.after)
    (h : Chain R p s moments q t) (seen : List (Moment τ)) (hI : I seen p s) :
    I (seen ++ moments) q t := by
  induction h generalizing seen with
  | nil => simpa using hI
  | @cons _ _ _ m _ _ h _ ih => simpa using ih (seen ++ [m]) (hstep h hI)

end Chain

end Rebuild.Build
