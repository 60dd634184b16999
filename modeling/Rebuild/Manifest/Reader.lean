import Rebuild.FileTree.Basic
import Rebuild.Manifest.Basic
import Rebuild.Toml.Parser

/-!
Reading manifests. Unknown keys say nothing, keys that are missing have standard values, and a
value of the wrong kind makes the manifest unreadable.
-/
namespace Rebuild

open Toml (Entries Value)

/-! ## Kinds of values -/

namespace Toml.Value

def text? : Value → Option String
  | string text => some text
  | _ => none

def path? (v : Value) : Option Path := v.text?.map Path.mk

/-- A number that is not negative. -/
def count? : Value → Option Nat
  | integer n => if 0 ≤ n then some n.toNat else none
  | _ => none

def flag? : Value → Option Bool
  | boolean b => some b
  | _ => none

def listOf (element? : Value → Option α) : Value → Option (List α)
  | array elements => elements.mapM element?
  | _ => none

/-- The entry that a date stands for where a table is wanted. -/
def dateKey : String := "$__toml_private_datetime"

/-- A table with texts as values. -/
def texts? : Value → Option (List (String × String))
  | table entries => entries.mapM fun (key, v) => v.text?.map (key, ·)
  | date text => some [(dateKey, text)]
  | _ => none

/-- The entries of a section with certain keys. An array gives their values in order. -/
def entries? (keys : List String) : Value → Option Entries
  | table entries => some entries
  | array elements => some (keys.zip elements)
  | date text => some [(dateKey, .string text)]
  | _ => none

end Toml.Value

namespace Toml.Entries

/-- The value of a key; `standard` if the key is missing. -/
def get (entries : Entries) (key : String) (read : Value → Option α) (standard : α) : Option α :=
  match Dict.find key entries with
  | none => some standard
  | some v => read v

/-- The value of a key that must be there. -/
def require (entries : Entries) (key : String) (read : Value → Option α) : Option α :=
  (Dict.find key entries).bind read

end Toml.Entries

/-! ## Sections -/

namespace Manifest

def readLogging (v : Value) : Option LoggingSettings := do
  let entries ← v.entries? ["level", "targets", "json", "stderr", "file"]
  let standard : LoggingSettings := {}
  return {
    level := ← Entries.get entries "level" Value.text? standard.level
    targets := ← Entries.get entries "targets" Value.texts? standard.targets
    json := ← Entries.get entries "json" Value.flag? standard.json
    stderr := ← Entries.get entries "stderr" Value.flag? standard.stderr
    file := ← Entries.get entries "file" (fun v => v.path?.map some) standard.file }

def readBuild (v : Value) : Option BuildSettings := do
  let entries ← v.entries? ["max_error_count", "sort_threshold", "cycle_probe_limit",
    "source_extension", "artifact_extension"]
  let standard : BuildSettings := {}
  let options := standard.options
  return {
    options.maxErrorCount :=
      ← Entries.get entries "max_error_count" Value.count? options.maxErrorCount
    options.sortThreshold :=
      ← Entries.get entries "sort_threshold" Value.count? options.sortThreshold
    options.cycleProbeLimit :=
      ← Entries.get entries "cycle_probe_limit" Value.count? options.cycleProbeLimit
    sourceExtension :=
      ← Entries.get entries "source_extension" Value.text? standard.sourceExtension
    artifactExtension :=
      ← Entries.get entries "artifact_extension" Value.text? standard.artifactExtension }

/-- The prefixes of system types. -/
def readDependencies (v : Value) : Option (List String) := do
  let entries ← v.entries? ["system_prefixes"]
  Entries.get entries "system_prefixes" (Value.listOf Value.text?) Name.defaultSystemPrefixes

def readProject (v : Value) : Option Project := do
  let entries ← v.entries? ["name", "source_root", "build_root", "classpath", "depends_on"]
  let libraries ← Entries.get entries "classpath" (Value.listOf Value.path?) []
  return {
    name := ← Entries.require entries "name" Value.text?
    sourceRoot := ← Entries.require entries "source_root" Value.path?
    buildRoot := ← Entries.require entries "build_root" Value.path?
    libraries := libraries.map ClasspathEntry.ofPath
    dependsOn := ← Entries.get entries "depends_on" (Value.listOf Value.text?) [] }

def ofEntries? (entries : Entries) : Option Manifest := do
  return {
    logging := ← Entries.get entries "logging" readLogging {}
    build := ← Entries.get entries "build" readBuild {}
    systemPrefixes :=
      ← Entries.get entries "dependencies" readDependencies Name.defaultSystemPrefixes
    projects := ← Entries.get entries "project" (Value.listOf readProject) [] }

end Manifest

/-! ## Manifests -/

/-- Why there is no manifest. -/
inductive ManifestError where
  | unreadable (fault : FileFault)
  /-- The text is no document, or a value has the wrong kind. -/
  | malformed
  | invalid (fault : ManifestFault)
  deriving DecidableEq, Repr

namespace Manifest

/-- Reads a manifest whose relative paths are meant from `base`. -/
def parse (text : String) (base : Path) : Except ManifestError Manifest :=
  match (Toml.parse text).bind ofEntries? with
  | none => .error .malformed
  | some m => match m.check with
    | .error fault => .error (.invalid fault)
    | .ok () => .ok (m.resolve base)

/-- Reads a file. -/
def load (t : FileTree) (p : Path) : Except ManifestError Manifest :=
  match t.readText p with
  | .error fault => .error (.unreadable fault)
  | .ok text => parse text (p.parent?.getD ⟨"."⟩)

/-- The places of a manifest in a workspace. The first one that is a file counts. -/
def places : List Path := [⟨"kiln.toml"⟩, ⟨".kiln.toml"⟩, ⟨".kiln/config.toml"⟩]

/-- The path of the manifest of a workspace. A path given by the environment is taken as it is,
from the root of the workspace if it is relative. -/
def discover (t : FileTree) (root : Path) (environment : Option Path) : Option Path :=
  match environment with
  | some p => some (root.join p)
  | none => (places.map root.join).find? t.isFile

/-- The manifest of a workspace with its path. Without one the standard values apply. -/
def loadFor (t : FileTree) (root : Path) (environment : Option Path) :
    Except ManifestError (Manifest × Option Path) :=
  match discover t root environment with
  | none => .ok ({}, none)
  | some p => (load t p).map fun m => (m, some p)

end Manifest

end Rebuild
