import Rebuild.FileTree.Basic
import Rebuild.Finder
import Rebuild.Text.Basic

/-!
Class paths: where compiled artifacts are searched. Directories are read as they are, archives
as they were when they were first looked into.
-/
namespace Rebuild

inductive ClasspathEntry where
  | directory (path : Path)
  | archive (path : Path)
  deriving Repr

namespace ClasspathEntry

def path : ClasspathEntry → Path
  | directory p | archive p => p

/-- Files that end in `.jar` or `.zip` are archives, anything else is a directory. -/
def ofPath (p : Path) : ClasspathEntry :=
  match p.extension?.map Text.asciiLower with
  | some "jar" | some "zip" => archive p
  | _ => directory p

/-- The entries with the first of each path only. -/
def dedup : List (List Component) → List ClasspathEntry → List ClasspathEntry
  | _, [] => []
  | seen, entry :: rest =>
    if entry.path.components ∈ seen then dedup seen rest
    else entry :: dedup (entry.path.components :: seen) rest

end ClasspathEntry

/-- The members of an archive; `none` for one that is missing or that is none. -/
abbrev Snapshot := Option (List (String × List UInt8))

/-- Opens an archive. What is no archive can be opened too, but has no members. -/
def FileTree.snapshot (t : FileTree) (p : Path) : Except FileFault Snapshot :=
  match t.lookup p with
  | .ok (.file (.archive members _) _) => .ok (some members)
  | .ok _ => .ok none
  | .error .notFound => .ok none
  | .error fault => .error fault

/-- An ordered list of entries with the archives opened so far. -/
structure Classpath where
  entries : List ClasspathEntry
  archives : Dict (List Component) Snapshot := .empty

namespace Classpath

/-- The file name of the artifact of a class. -/
def artifactName (internal : String) : String := internal ++ ".class"

def findInDirectory (t : FileTree) (dir : Path) (internal : String) : Option (List UInt8) :=
  (t.read (dir.join ⟨artifactName internal⟩)).toOption

/-- Of members with the same name the last one counts. -/
def findInSnapshot (snapshot : Snapshot) (internal : String) : Option (List UInt8) :=
  snapshot.bind fun members => members.reverse.lookup (artifactName internal)

/-- Looks into an archive, which is opened at the first look. One that cannot be read stays
unopened. -/
def findInArchive (t : FileTree) (p : Path) (internal : String) (c : Classpath) :
    Option (List UInt8) × Classpath :=
  match c.archives.get? p.components with
  | some snapshot => (findInSnapshot snapshot internal, c)
  | none => match t.snapshot p with
    | .ok snapshot =>
      (findInSnapshot snapshot internal,
        { c with archives := c.archives.put p.components snapshot })
    | .error _ => (none, c)

def findInEntry (t : FileTree) (entry : ClasspathEntry) (internal : String) (c : Classpath) :
    Option (List UInt8) × Classpath :=
  match entry with
  | .directory dir => (findInDirectory t dir internal, c)
  | .archive p => c.findInArchive t p internal

/-- The first of the entries that has the class answers; those behind it are not opened. -/
def findIn (t : FileTree) (internal : String) : List ClasspathEntry → Classpath →
    Option (List UInt8) × Classpath
  | [], c => (none, c)
  | entry :: rest, c =>
    match c.findInEntry t entry internal with
    | (some bytes, c) => (some bytes, c)
    | (none, c) => findIn t internal rest c

/-- The artifact of a class. -/
def find (t : FileTree) (c : Classpath) (internal : String) : Option (List UInt8) × Classpath :=
  findIn t internal c.entries c

/-- Forgets the archives opened so far. -/
def refresh (c : Classpath) : Classpath := { c with archives := .empty }

/-- An upper bound on the bytes of the members of the archives opened so far. -/
def volume (c : Classpath) : Nat :=
  (c.archives.values.map fun snapshot => match snapshot with
    | some members => (members.map fun m => m.2.length).foldr (· + ·) 0
    | none => 0).foldr (· + ·) 0

/-- Class paths find artifacts in a tree of files. -/
def finder (t : FileTree) : Finder Classpath where
  find internal c := c.find t internal
  volume c := t.volume + c.volume

end Classpath

/-! ## Fingerprints -/

/-- One value of the sequence that tells the states of a class path apart. -/
inductive Trait where
  | text (value : String)
  | size (bytes : Nat)
  | seconds (value : Nat)
  | nanos (value : Nat)
  | missing
  deriving DecidableEq, Repr

/-- Times before the epoch count as the epoch. -/
def Moment.traits (m : Moment) : List Trait :=
  if m.seconds < 0 then [.seconds 0, .nanos 0] else [.seconds m.seconds.toNat, .nanos m.nanos]

namespace ClasspathEntry

/-- The class files at or below a directory, in the order of paths. -/
def classFiles (t : FileTree) (dir : Path) : List Path :=
  ((t.walk dir).filter fun p => p.extension? == some "class").mergeSort Path.le

def fileTraits (t : FileTree) (dir p : Path) : Except FileFault (List Trait) := do
  let (size, modified) ← t.metadata p
  return .text ((p.relativeTo? dir).getD p).text :: .size size :: modified.traits

/-- Path, size and time of an archive; of a directory its path, and name, size and time of each
class file. -/
def fingerprint (t : FileTree) : ClasspathEntry → Except FileFault (List Trait)
  | archive p =>
    match t.metadata p with
    | .ok (size, modified) => .ok (.text p.text :: .size size :: modified.traits)
    | .error .notFound => .ok [.text p.text, .missing]
    | .error fault => .error fault
  | directory dir => do
    let files ← (classFiles t dir).mapM (fileTraits t dir)
    return .text dir.text :: files.flatten

end ClasspathEntry

/-- The values of all entries, one after the other. -/
def Classpath.fingerprint (t : FileTree) (c : Classpath) : Except FileFault (List Trait) := do
  return (← c.entries.mapM (ClasspathEntry.fingerprint t)).flatten

end Rebuild
