import Rebuild.Workspace.FileRegistry
import Rebuild.Workspace.Project

/-!
Workspaces: projects that build on each other. The projects that a project reaches, and the
class path that they make together, are computed once; they are forgotten when a project that
they come from is changed.
-/
namespace Rebuild

/-- Projects by name in the order in which they were added, with what was computed from them,
and the numbers of their source files. -/
structure Workspace where
  sourceExtension : String := "java"
  artifactExtension : String := "class"
  projects : Dict String Project := .empty
  /-- The closures computed so far. -/
  closures : Dict String (List String) := .empty
  /-- The class paths computed so far. -/
  classpaths : Dict String (List ClasspathEntry) := .empty
  files : Workspace.FileRegistry := {}

inductive WorkspaceError where
  | unknownProject (name : String)
  | duplicateProject (name : String)
  deriving DecidableEq, Repr

/-- The text shown to the user. -/
def WorkspaceError.message : WorkspaceError → String
  | unknownProject name => "unknown project `" ++ name ++ "`"
  | duplicateProject name => "duplicate project `" ++ name ++ "`"

/-- What is asked of a workspace. A request that fails changes nothing. -/
abbrev WorkspaceM := StateT Workspace (Except WorkspaceError)

namespace Workspace

/-! ## Reaching projects -/

/-- Depth-first search in at most `n` steps: the names on the stack and those that `next` leads
to, each once, in the order in which they are reached. -/
def preorder (next : String → List String) : (n : Nat) → (stack seen : List String) → List String
  | _, [], _ => []
  | 0, _ :: _, _ => []
  | n + 1, name :: stack, seen =>
    if name ∈ seen then preorder next n stack seen
    else name :: preorder next n (next name ++ stack) (name :: seen)

def project? (w : Workspace) (name : String) : Option Project := w.projects.get? name

/-- The names that a project lists; one that does not exist lists none. -/
def directDependencies (w : Workspace) (name : String) : List String :=
  ((w.project? name).map Project.dependsOn).getD []

/-- The projects that list a name. -/
def directDependents (w : Workspace) (name : String) : List String :=
  (w.projects.values.filter fun p => p.dependsOn.contains name).map Project.name

/-- A search takes a step for its start, and one for each listing of a project that it meets. -/
def searchBound (w : Workspace) : Nat :=
  1 + (w.projects.values.map fun p => p.dependsOn.length).foldr (· + ·) 0

/-- A project and those that it reaches, depth first in the order of their lists. Names without
a project are left out. -/
def reached (w : Workspace) (name : String) : List String :=
  (preorder w.directDependencies w.searchBound [name] []).filter w.projects.contains

/-- A name and the projects that reach it. -/
def affectedBy (w : Workspace) (name : String) : List String :=
  preorder w.directDependents w.searchBound [name] []

/-! ## Changing projects -/

/-- Forgets what was computed for a project and for those that reach it. -/
def invalidate (w : Workspace) (name : String) : Workspace :=
  let keep (other : String) := !(w.affectedBy name).contains other
  { w with closures := w.closures.filterKeys keep, classpaths := w.classpaths.filterKeys keep }

/-- Adds a project behind the others. A project of the same name must not be there. -/
def addProject (w : Workspace) (p : Project) : Except WorkspaceError Workspace :=
  if w.projects.contains p.name then .error (.duplicateProject p.name)
  else .ok ({ w with projects := w.projects.put p.name p }.invalidate p.name)

/-- Adds projects one after the other, up to the first that cannot be added. -/
def addProjects (w : Workspace) (projects : List Project) : Except WorkspaceError Workspace :=
  projects.foldlM addProject w

/-- Replaces the list of the projects that a project builds on. -/
def setDependencies (w : Workspace) (name : String) (dependsOn : List String) :
    Except WorkspaceError Workspace :=
  match w.project? name with
  | none => .error (.unknownProject name)
  | some p =>
    .ok ({ w with projects := w.projects.put name { p with dependsOn } }.invalidate name)

/-! ## Closures and class paths -/

/-- A project followed by those that it reaches. -/
def closure (name : String) : WorkspaceM (List String) := do
  let w ← get
  match w.closures.get? name with
  | some known => return known
  | none =>
    unless w.projects.contains name do throw (.unknownProject name)
    let names := w.reached name
    set { w with closures := w.closures.put name names }
    return names

def closureProjects (name : String) : WorkspaceM (List Project) := do
  let names ← closure name
  let w ← get
  return names.filterMap w.project?

/-- The entries of a project and of those that it reaches. An entry whose path came before is
left out. -/
def classpath (name : String) : WorkspaceM (List ClasspathEntry) := do
  match (← get).classpaths.get? name with
  | some known => return known
  | none =>
    let projects ← closureProjects name
    let entries := ClasspathEntry.dedup [] (projects.flatMap Project.ownClasspath)
    modify fun w => { w with classpaths := w.classpaths.put name entries }
    return entries

/-- The class path of a project, ready for lookups. -/
def classFinder (name : String) : WorkspaceM Classpath := do
  return { entries := ← classpath name }

/-- The entries of the class paths of all projects, each path once. -/
def unitedClasspath : WorkspaceM (List ClasspathEntry) := do
  let classpaths ← (← get).projects.keys.mapM classpath
  return ClasspathEntry.dedup [] classpaths.flatten

end Workspace

end Rebuild
