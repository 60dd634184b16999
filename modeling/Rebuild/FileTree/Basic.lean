import Rebuild.Deflate.Size
import Rebuild.Dict
import Rebuild.Path
import Rebuild.Text.Utf8

/-!
A tree of files and directories as a value, and what is read from it. Places in the tree are lists
of names from the root.
-/
namespace Rebuild

/-- A moment: seconds and nanoseconds since the epoch. -/
structure Moment where
  seconds : Int
  nanos : Nat
  deriving DecidableEq, Repr

/-- What a file holds. Of an archive only its named members matter. -/
inductive Content where
  | bytes (data : List UInt8)
  | archive (members : List (String × List UInt8)) (compressed : Bool)
  deriving DecidableEq, Repr

namespace Content

/-- The number of bytes that one member adds to an archive: two headers with its name, and its
data. -/
def memberSize (compressed : Bool) (m : String × List UInt8) : Nat :=
  76 + 2 * m.1.utf8ByteSize + if compressed then Deflate.size m.2 else m.2.length

def size : Content → Nat
  | bytes data => data.length
  | archive members compressed => 22 + (members.map (memberSize compressed)).foldr (· + ·) 0

/-- The bytes of a file. Those of an archive are no more than the mark at its front. -/
def data : Content → List UInt8
  | bytes data => data
  | archive _ _ => [0x50, 0x4B]

/-- An upper bound on the number of bytes that can be read from the file or its members. -/
def volume : Content → Nat
  | bytes data => data.length
  | archive members _ => (members.map fun m => m.2.length).foldr (· + ·) 0

end Content

inductive Entry where
  | directory (modified : Moment)
  | file (content : Content) (modified : Moment)
  deriving DecidableEq, Repr

/-- Why a file could not be used. -/
inductive FileFault where
  | notFound
  | alreadyExists
  | notADirectory
  | isADirectory
  | nameTooLong
  | invalidName
  | notText
  deriving DecidableEq, Repr

/-- The wording of the system for each fault. -/
def FileFault.message : FileFault → String
  | notFound => "No such file or directory (os error 2)"
  | alreadyExists => "File exists (os error 17)"
  | notADirectory => "Not a directory (os error 20)"
  | isADirectory => "Is a directory (os error 21)"
  | nameTooLong => "File name too long (os error 36)"
  | invalidName => "file name contained an unexpected NUL byte"
  | notText => "stream did not contain valid UTF-8"

/-- All entries below the root, which is always a directory, and the present moment. -/
structure FileTree where
  entries : Dict (List String) Entry := .empty
  now : Moment := ⟨0, 0⟩

namespace FileTree

def entry? (t : FileTree) (place : List String) : Option Entry :=
  if place = [] then some (.directory ⟨0, 0⟩) else t.entries.get? place

def isDirectoryAt (t : FileTree) (place : List String) : Bool :=
  match t.entry? place with
  | some (.directory _) => true
  | _ => false

/-- The limit on the bytes of one name. -/
def maxNameSize : Nat := 255

/-- The limit on the bytes of a path. -/
def maxPathSize : Nat := 4095

/-- The name that a piece of a path stands for, where `none` stays in the directory. -/
def nameOf (piece : List Char) : Option String :=
  if Path.isVacuous piece then none else some (String.ofList piece)

/-- From a place along one piece of a path. Only a directory leads anywhere. -/
def step (t : FileTree) (place : List String) (piece : List Char) :
    Except FileFault (List String) :=
  if !t.isDirectoryAt place then .error .notADirectory
  else match nameOf piece with
    | none => .ok place
    | some name =>
      if name = ".." then .ok place.dropLast
      else if name.utf8ByteSize > maxNameSize then .error .nameTooLong
      else if (t.entry? (place ++ [name])).isSome then .ok (place ++ [name])
      else .error .notFound

def follow (t : FileTree) : List String → List (List Char) → Except FileFault (List String)
  | place, [] => .ok place
  | place, piece :: rest => do t.follow (← t.step place piece) rest

/-- The pieces of a path that the system takes. -/
def pieces (p : Path) : Except FileFault (List (List Char)) :=
  if p.text.toList.contains '\x00' then .error .invalidName
  else if p.text = "" then .error .notFound
  else if p.text.utf8ByteSize > maxPathSize then .error .nameTooLong
  else .ok p.pieces

/-- The place that a path leads to. A path that is not absolute starts at the root too. -/
def resolve (t : FileTree) (p : Path) : Except FileFault (List String) := do
  t.follow [] (← pieces p)

/-- The entry that a path leads to. -/
def lookup (t : FileTree) (p : Path) : Except FileFault Entry := do
  let place ← t.resolve p
  match t.entry? place with
  | some entry => return entry
  | none => throw .notFound

/-- Is there anything where the path leads? -/
def contains (t : FileTree) (p : Path) : Bool := (t.lookup p).isOk

def isFile (t : FileTree) (p : Path) : Bool :=
  match t.lookup p with
  | .ok (.file _ _) => true
  | _ => false

def isDirectory (t : FileTree) (p : Path) : Bool :=
  match t.lookup p with
  | .ok (.directory _) => true
  | _ => false

def content (t : FileTree) (p : Path) : Except FileFault Content := do
  match ← t.lookup p with
  | .file content _ => return content
  | .directory _ => throw .isADirectory

def read (t : FileTree) (p : Path) : Except FileFault (List UInt8) := do
  return (← t.content p).data

/-- The text of a file, which must be well-formed UTF-8. -/
def readText (t : FileTree) (p : Path) : Except FileFault String := do
  match Text.Utf8.decode? (← t.read p) with
  | some text => return text
  | none => throw .notText

/-- The number of bytes of a directory. -/
def directorySize : Nat := 4096

/-- Size and time of the last change. -/
def metadata (t : FileTree) (p : Path) : Except FileFault (Nat × Moment) := do
  match ← t.lookup p with
  | .file content modified => return (content.size, modified)
  | .directory modified => return (directorySize, modified)

/-- The rest of `place` behind `base`, if it lies below or at `base`. -/
def below? : (base place : List String) → Option (List String)
  | [], place => some place
  | _ :: _, [] => none
  | a :: base, b :: place => if a = b then below? base place else none

/-- The names in the directory that a path leads to. -/
def list? (t : FileTree) (p : Path) : Option (List String) :=
  match t.resolve p with
  | .error _ => none
  | .ok place =>
    if t.isDirectoryAt place then
      some (t.entries.keys.filterMap fun other => match below? place other with
        | some [name] => some name
        | _ => none)
    else none

/-- The regular files at or below a path, each as a path that starts with the given one. -/
def walk (t : FileTree) (p : Path) : List Path :=
  match t.resolve p with
  | .error _ => []
  | .ok place => t.entries.entries.filterMap fun (other, entry) =>
    match entry, below? place other with
    | .file _ _, some names => some (names.foldl (fun p name => p.join ⟨name⟩) p)
    | _, _ => none

/-- An upper bound on the number of bytes that can be read from the files and their members. -/
def volume (t : FileTree) : Nat :=
  (t.entries.values.map fun entry => match entry with
    | .file content _ => content.volume
    | .directory _ => 0).foldr (· + ·) 0

end FileTree

end Rebuild
