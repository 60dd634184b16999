import Rebuild.FileTree.Basic
import Rebuild.Workspace.Basic

/-!
The files of a workspace: which types a source file defines, where the source of a type lies,
and which artifacts come from a source file.
-/
namespace Rebuild.Workspace

/-! ## Looking through a closure -/

/-- The first path at a place relative to `root` of each project that `wanted` holds of. -/
def firstIn (root : Project → Path) (relative : Path) (wanted : Path → Bool)
    (projects : List Project) : Option Path :=
  (projects.map fun p => (root p).join relative).find? wanted

/-- A source by its path within the source root, in the first project that has it. -/
def resolveSource (t : FileTree) (name : String) (relative : Path) : WorkspaceM (Option Path) := do
  return firstIn Project.sourceRoot relative t.contains (← closureProjects name)

/-- An artifact by its path within the build root, in the first project that has it. -/
def resolveArtifact (t : FileTree) (name : String) (relative : Path) :
    WorkspaceM (Option Path) := do
  return firstIn Project.buildRoot relative t.contains (← closureProjects name)

/-! ## From types to sources -/

/-- Where the source of a type lies within a source root: where its outermost type says. -/
def sourceOfType (w : Workspace) (binary : String) : Path :=
  ⟨Name.toInternal (Name.root binary) ++ "." ++ w.sourceExtension⟩

/-- The source of a type in the first of all projects that has it. -/
def sourceForType? (w : Workspace) (t : FileTree) (binary : String) : Option Path :=
  firstIn Project.sourceRoot (w.sourceOfType binary) t.isFile w.projects.values

/-- The source of a type in the first project of a closure that has it. -/
def sourceForTypeIn (t : FileTree) (name binary : String) : WorkspaceM (Option Path) := do
  let projects ← closureProjects name
  return firstIn Project.sourceRoot ((← get).sourceOfType binary) t.isFile projects

/-! ## From sources to types -/

/-- The first project whose source root contains a path. -/
def projectForSource? (w : Workspace) (source : Path) : Option Project :=
  w.projects.values.find? fun p => p.containsSource source

/-- The binary name of a relative path: its components with dots between them. -/
def typeName (relative : Path) : String :=
  String.intercalate "." (relative.withoutExtension.components.map Path.componentText)

/-- The binary name of the outermost type that a source file defines where it lies. -/
def typeOfSource? (w : Workspace) (source : Path) : Option String := do
  let p ← w.projectForSource? source
  let relative ← source.relativeTo? p.sourceRoot
  if (← relative.extension?) = w.sourceExtension then some (typeName relative) else none

/-! ## Artifacts -/

/-- Is this the artifact of the type with the simple name `stem` or of one nested in it? -/
def isArtifactOf (w : Workspace) (stem : String) (artifact : Path) : Bool :=
  artifact.extension? == some w.artifactExtension &&
    match artifact.fileStem? with
    | some name => Name.isSelfOrNested stem name
    | none => false

/-- The artifacts beside and at a path without extension. -/
def artifactsAt (w : Workspace) (t : FileTree) (candidate : Path) : List Path :=
  match candidate.parent?, candidate.fileName? with
  | some dir, some stem =>
    let all := ((t.list? dir).getD []).map fun name => dir.join ⟨name⟩
    Path.sort (all.filter (w.isArtifactOf stem))
  | _, _ => []

/-- The artifacts that come from a source file: those of its outermost type and of the types
nested in it, in the order of paths. -/
def artifactsForSource (w : Workspace) (t : FileTree) (source : Path) : List Path :=
  match w.projectForSource? source, w.typeOfSource? source with
  | some p, some binary => w.artifactsAt t (p.buildRoot.join ⟨Name.toInternal binary⟩)
  | _, _ => []

/-! ## All sources -/

/-- The paths that differ from the one before them, where `last` comes before the first. -/
def distinctAfter (last : Path) : List Path → List Path
  | [] => []
  | p :: rest => if p.same last then distinctAfter last rest else p :: distinctAfter p rest

/-- The paths of a sorted list, each once. -/
def distinct : List Path → List Path
  | [] => []
  | p :: rest => p :: distinctAfter p rest

/-- The source files of all projects, in the order of paths. -/
def sourceFiles (w : Workspace) (t : FileTree) : List Path :=
  let files := w.projects.values.flatMap fun p => t.walk p.sourceRoot
  let sources := files.filter fun p => p.extension? == some w.sourceExtension
  distinct (Path.sort sources)

/-! ## Numbers of files -/

/-- The number of a file, a new one if it has none. -/
def fileId (w : Workspace) (p : Path) : FileId × Workspace :=
  let (file, files) := w.files.register p
  (file, { w with files })

/-- The number of the source of a type, where a source without a number gets one. -/
def fileForType (t : FileTree) (binary : String) : StateM Workspace (Option FileId) := do
  match (← get).sourceForType? t binary with
  | none => return none
  | some p => some <$> modifyGet fun w => w.fileId p

/-- The number of the source of a type within the closure of a project. -/
def fileForTypeIn (t : FileTree) (name binary : String) : StateM Workspace (Option FileId) :=
  fun w => match (sourceForTypeIn t name binary).run w with
    | .ok (some p, w) => let (file, w) := w.fileId p; (some file, w)
    | .ok (none, w) => (none, w)
    | .error _ => (none, w)

end Rebuild.Workspace
