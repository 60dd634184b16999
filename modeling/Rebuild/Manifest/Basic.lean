import Rebuild.Build.Options
import Rebuild.Manifest.Logging
import Rebuild.Workspace.Basic

/-!
Manifests, which describe a workspace: its projects, how they are built, and what is logged.
-/
namespace Rebuild

structure BuildSettings where
  options : Build.Options := {}
  sourceExtension : String := "java"
  artifactExtension : String := "class"

structure Manifest where
  logging : LoggingSettings := {}
  build : BuildSettings := {}
  /-- Types whose names start so are never taken for types of the workspace. -/
  systemPrefixes : List String := Name.defaultSystemPrefixes
  projects : List Project := []

/-- Why the content of a manifest makes no sense. -/
inductive ManifestFault where
  | noErrorsAllowed
  | noCycleProbes
  | unnamedProject
  | duplicateProject (name : String)
  | unknownDependency (name dependency : String)
  deriving DecidableEq, Repr

/-- The text shown to the user. -/
def ManifestFault.message : ManifestFault → String
  | noErrorsAllowed => "invalid config: build.max_error_count must be at least 1"
  | noCycleProbes => "invalid config: build.cycle_probe_limit must be at least 1"
  | unnamedProject => "invalid config: project name must not be empty"
  | duplicateProject name => "invalid config: duplicate project `" ++ name ++ "`"
  | unknownDependency name dependency =>
    "invalid config: project `" ++ name ++ "` depends on unknown project `" ++ dependency ++ "`"

namespace Manifest

/-! ## Paths -/

/-- The kind of a library is that of its resolved path. -/
def resolveProject (base : Path) (p : Project) : Project :=
  { p with
    sourceRoot := base.join p.sourceRoot
    buildRoot := base.join p.buildRoot
    libraries := p.libraries.map fun entry => .ofPath (base.join entry.path) }

/-- Relative paths of a manifest are meant from the directory in which it lies. -/
def resolve (base : Path) (m : Manifest) : Manifest :=
  { m with
    projects := m.projects.map (resolveProject base)
    logging.file := m.logging.file.map base.join }

/-! ## Checks -/

/-- Checks the names of projects, where `earlier` are those before. -/
def checkNames (earlier : List String) : List Project → Except ManifestFault Unit
  | [] => .ok ()
  | p :: rest =>
    if Text.trim p.name = "" then .error .unnamedProject
    else if p.name ∈ earlier then .error (.duplicateProject p.name)
    else checkNames (p.name :: earlier) rest

/-- The first dependency of a project that is no project. -/
def firstUnknown (names : List String) (p : Project) : Option ManifestFault :=
  (p.dependsOn.find? (· ∉ names)).map (.unknownDependency p.name)

/-- Checks that projects depend on projects only. -/
def checkDependencies (projects : List Project) : Except ManifestFault Unit :=
  match projects.findSome? (firstUnknown (projects.map Project.name)) with
  | some fault => .error fault
  | none => .ok ()

/-- The first fault of a manifest, if there is one. -/
def check (m : Manifest) : Except ManifestFault Unit := do
  if m.build.options.maxErrorCount = 0 then throw .noErrorsAllowed
  if m.build.options.cycleProbeLimit = 0 then throw .noCycleProbes
  checkNames [] m.projects
  checkDependencies m.projects

/-! ## Workspaces -/

/-- The workspace that a manifest describes. -/
def workspace (m : Manifest) : Except WorkspaceError Workspace :=
  let empty : Workspace := {
    sourceExtension := m.build.sourceExtension
    artifactExtension := m.build.artifactExtension }
  empty.addProjects m.projects

end Manifest

end Rebuild
