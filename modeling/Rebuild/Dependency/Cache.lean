import Rebuild.Dependency.Reference
import Rebuild.Dependency.Shape
import Rebuild.FileId
import Rebuild.Path

/-!
What is known of each file: what it declares, what it refers to, and the files it depends on.
Each edge between two files is recorded at both ends.
-/
namespace Rebuild.Dependency

open Artifact (ClassFile)

/-- What is known of a file. `τ` is the type of parse trees. -/
structure Record (τ : Type) where
  defined : DeclarationSet := {}
  shape : List String := []
  referenced : DeclarationSet := {}
  dependencies : FileSet := []
  dependents : FileSet := []
  /-- The file was edited since it was last compiled. -/
  stale : Bool := false
  tree : Option τ := none

/-- What the artifacts of a file tell of it. -/
structure Findings where
  defined : DeclarationSet
  /-- What other files can see of it. -/
  shape : List String
  referenced : DeclarationSet

namespace Record

variable {τ : Type}

/-- A file was compiled with these findings. -/
def compiled (r : Record τ) (found : Findings) : Record τ :=
  { r with
    defined := found.defined, shape := found.shape, referenced := found.referenced
    tree := none, stale := false }

/-- What a file declares and refers to is forgotten. -/
def cleared (r : Record τ) : Record τ :=
  { r with defined := {}, shape := [], referenced := {}, tree := none }

end Record

/-- The records of the files, the table of declarations, and the prefixes of names that are
never followed to a file. -/
structure Cache (φ τ : Type) where
  table : Table φ
  systemPrefixes : List String
  records : Dict FileId (Record τ) := .empty

/-- What changed when a file was compiled. -/
structure Update where
  declarationsChanged : Bool
  referencesChanged : Bool
  deriving DecidableEq, Repr

def Update.changed (u : Update) : Bool := u.declarationsChanged || u.referencesChanged

/-- Finds the source file that defines an outermost type, by its binary name. -/
abbrev SourceMap (ω : Type) := String → StateM ω (Option FileId)

namespace Cache

variable {φ τ ω : Type}

/-! ## Looking -/

/-- The record of a file; a file without one has an empty record. -/
def record (c : Cache φ τ) (file : FileId) : Record τ := (c.records.get? file).getD {}

/-- The files that a file depends on, in ascending order. -/
def dependencies (c : Cache φ τ) (file : FileId) : FileSet := (c.record file).dependencies

/-- The files that depend on a file, in ascending order. -/
def dependents (c : Cache φ τ) (file : FileId) : FileSet := (c.record file).dependents

def isStale (c : Cache φ τ) (file : FileId) : Bool := (c.record file).stale

def tree? (c : Cache φ τ) (file : FileId) : Option τ := (c.record file).tree

/-- The files that have a record, in ascending order. -/
def files (c : Cache φ τ) : FileSet := Ascending.ofList c.records.keys

/-! ## Changing records -/

/-- Changes the record of a file, which is made if there is none. -/
def modifyRecord (c : Cache φ τ) (file : FileId) (f : Record τ → Record τ) : Cache φ τ :=
  { c with records := c.records.put file (f (c.record file)) }

/-- A file was edited. Its parse tree is dropped. -/
def markStale (c : Cache φ τ) (file : FileId) : Cache φ τ :=
  c.modifyRecord file fun r => { r with stale := true, tree := none }

def setTree (c : Cache φ τ) (file : FileId) (tree : τ) : Cache φ τ :=
  c.modifyRecord file fun r => { r with tree := some tree }

/-- Records that `source` depends on `target`. -/
def link (c : Cache φ τ) (source target : FileId) : Cache φ τ :=
  (c.modifyRecord source fun r =>
      { r with dependencies := Ascending.insert target r.dependencies }).modifyRecord target
    fun r => { r with dependents := Ascending.insert source r.dependents }

/-- Records that `source` does not depend on `target` any more. -/
def unlink (c : Cache φ τ) (source target : FileId) : Cache φ τ :=
  (c.modifyRecord source fun r =>
      { r with dependencies := Ascending.erase target r.dependencies }).modifyRecord target
    fun r => { r with dependents := Ascending.erase source r.dependents }

/-- Records edges, each a file with one that it depends on. -/
def linkAll (c : Cache φ τ) (edges : List (FileId × FileId)) : Cache φ τ :=
  edges.foldl (fun c e => c.link e.1 e.2) c

def unlinkAll (c : Cache φ τ) (edges : List (FileId × FileId)) : Cache φ τ :=
  edges.foldl (fun c e => c.unlink e.1 e.2) c

/-- Removes all edges of a file and forgets what it declares and refers to. A file that has no
record does not get one. -/
def clearFile (c : Cache φ τ) (file : FileId) : Cache φ τ :=
  match c.records.get? file with
  | none => c
  | some r =>
    let c := c.modifyRecord file Record.cleared
    let c := c.unlinkAll (r.dependencies.map fun target => (file, target))
    c.unlinkAll (r.dependents.map fun source => (source, file))

/-- Clears a file and drops its record. -/
def removeFile (c : Cache φ τ) (file : FileId) : Cache φ τ :=
  let c := c.clearFile file
  { c with records := c.records.erase file }

/-- Drops all records. -/
def clear (c : Cache φ τ) : Cache φ τ := { c with records := .empty }

/-- Forgets the artifacts of a type and of the types nested in it. -/
def evict (c : Cache φ τ) (binary : String) : Cache φ τ :=
  { c with table := c.table.evict binary }

/-! ## Compiled files -/

/-- The artifacts that can be read and decoded. -/
def loadArtifacts (read : Path → Option (List UInt8)) (artifacts : List Path) : List ClassFile :=
  artifacts.filterMap fun p => (read p).bind fun bytes => (ClassFile.decode bytes).toOption

/-- Forgets the artifacts of the outermost types of some classes. -/
def evictClasses (t : Table φ) (classes : List ClassFile) : Table φ :=
  classes.foldl (fun t c => t.evict (Name.root c.binaryName)) t

/-- The declarations that any of the classes refers to. -/
def referencesOfClasses (source : Finder φ) : DeclarationSet → List ClassFile →
    TableM φ DeclarationSet
  | found, [] => return found
  | found, c :: rest => do
    let more ← references source c
    referencesOfClasses source (found.insertAll more.toList) rest

/-- Reads the artifacts of a file. Its types are looked up afresh. -/
def survey (source : Finder φ) (read : Path → Option (List UInt8)) (artifacts : List Path) :
    TableM φ Findings := do
  let classes := loadArtifacts read artifacts
  modify fun t => evictClasses t classes
  let definedSet ← defined source classes
  let referenced ← referencesOfClasses source {} classes
  return ⟨definedSet, shape classes, referenced⟩

/-- The outermost types of the types among some declarations, without the system's. -/
def rootTypes (systemPrefixes : List String) (referenced : DeclarationSet) : List String :=
  let roots := (referenced.toList.filter Declaration.isType).filterMap Declaration.rootType?
  (DeclarationSet.insertAll {} roots).ids.filter fun id => !Name.isSystem systemPrefixes id

def targetsIn (sources : SourceMap ω) : List String → StateM ω (List FileId)
  | [] => return []
  | root :: rest => do
    let first ← sources root
    let others ← targetsIn sources rest
    return first.toList ++ others

/-- The files other than `file` that define some outermost types. -/
def targets (sources : SourceMap ω) (file : FileId) (roots : List String) : StateM ω FileSet := do
  return Ascending.ofList ((← targetsIn sources roots).filter (· ≠ file))

/-- Makes `targets` the dependencies of a file. -/
def relink (c : Cache φ τ) (file : FileId) (targets : FileSet) : Cache φ τ :=
  let old := c.dependencies file
  let c := c.linkAll ((Ascending.difference targets old).map fun target => (file, target))
  c.unlinkAll ((Ascending.difference old targets).map fun target => (file, target))

/-- Takes in what a file declares and refers to after it was compiled. -/
def absorb (c : Cache φ τ) (file : FileId) (found : Findings) (targets : FileSet) :
    Update × Cache φ τ :=
  let old := c.record file
  let update : Update := {
    declarationsChanged := old.shape ≠ found.shape
    referencesChanged := !old.referenced.same found.referenced || old.dependencies ≠ targets }
  (update, (c.modifyRecord file fun r => r.compiled found).relink file targets)

/-- Recomputes the record of a file from its compiled artifacts. Its types are looked up afresh;
each outermost type that it refers to leads, through `sources`, to a file it depends on. -/
def update (source : Finder φ) (read : Path → Option (List UInt8)) (sources : SourceMap ω)
    (file : FileId) (artifacts : List Path) (c : Cache φ τ) (w : ω) :
    Update × Cache φ τ × ω :=
  let (found, table) := (survey source read artifacts).run c.table
  let (files, w) := (targets sources file (rootTypes c.systemPrefixes found.referenced)).run w
  let (result, c) := { c with table }.absorb file found files
  (result, c, w)

end Cache

end Rebuild.Dependency
