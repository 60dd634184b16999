import Rebuild.FileTree.Basic

/-!
How a tree of files is changed. Whatever cannot be done leaves the tree as it is, apart from the
directories that were made on the way.
-/
namespace Rebuild.FileTree

/-- The moment after a change. -/
def tick (t : FileTree) : FileTree := { t with now := ⟨t.now.seconds + 1, t.now.nanos⟩ }

/-- The directory at a place was changed just now. -/
def touchDirectory (t : FileTree) (place : List String) : FileTree :=
  { t with entries := t.entries.modify place fun entry => match entry with
      | .directory _ => .directory t.now
      | file => file }

/-- Puts an entry into the directory at `place`. -/
def putChild (t : FileTree) (place : List String) (name : String) (entry : Entry) : FileTree :=
  ({ t with entries := t.entries.put (place ++ [name]) entry }.touchDirectory place).tick

/-- Makes one directory. Slashes at the end of the path do not count. -/
def makeSingle (t : FileTree) (p : Path) : Except FileFault FileTree := do
  let pieces := Path.trimSlashes (← pieces p)
  let directory ← t.follow [] pieces.dropLast
  let last := pieces.getLastD []
  match t.step directory last with
  | .ok _ => throw .alreadyExists
  | .error .notFound => return t.putChild directory (String.ofList last) (.directory t.now)
  | .error fault => throw fault

/-- Makes a directory, with at most `n` missing ones above it. Wherever one cannot be made it must
be there already. The directories that were made stay even if the rest fails. -/
def makeWithin : (n : Nat) → FileTree → Path → Bool × FileTree
  | 0, t, _ => (false, t)
  | n + 1, t, p =>
    if p.text = "" then (true, t)
    else match t.makeSingle p, p.parent? with
      | .ok t, _ => (true, t)
      | .error .notFound, some parent =>
        match makeWithin n t parent with
        | (false, t) => (false, t)
        | (true, t) => match t.makeSingle p with
          | .ok t => (true, t)
          | .error _ => (t.isDirectory p, t)
      | .error .notFound, none => (false, t)
      | .error _, _ => (t.isDirectory p, t)

/-- Makes a directory and those above it that are missing. Is it there afterwards? Each piece of
the path names at most one of them. -/
def makeDirectory (t : FileTree) (p : Path) : Bool × FileTree :=
  t.makeWithin (p.pieces.length + 2) p

/-- Puts a file where the path leads. Nothing is put over a directory, nor where the path ends in
a slash or in dots, which name directories only. -/
def putFile (t : FileTree) (p : Path) (content : Content) : Except FileFault FileTree := do
  let pieces ← pieces p
  let directory ← t.follow [] pieces.dropLast
  let last := pieces.getLastD []
  let written := t.putChild directory (String.ofList last) (.file content t.now)
  if !Path.isName last then throw .isADirectory
  match t.step directory last with
  | .ok place => if t.isDirectoryAt place then throw .isADirectory else return written
  | .error .notFound => return written
  | .error fault => throw fault

/-- Writes a file and makes the directories above it, which stay even if the file cannot be
written. -/
def write (t : FileTree) (p : Path) (content : Content) : FileTree :=
  let t := match p.parent? with
    | some parent => (t.makeDirectory parent).2
    | none => t
  match t.putFile p content with
  | .ok t => t
  | .error _ => t

/-- Removes the entries at places with property `p`; the directory at a place loses them. -/
def erase (t : FileTree) (directory : List String) (p : List String → Bool) : FileTree :=
  (({ t with entries := t.entries.filterKeys fun place => !p place }).touchDirectory
    directory).tick

/-- Removes a file or a directory with all that is in it. Is it gone? A directory that the path
ends in dots for loses what is in it, but stays. -/
def delete (t : FileTree) (p : Path) : Bool × FileTree :=
  match t.resolve p with
  | .error _ => (false, t)
  | .ok place =>
    if Path.isName ((Path.trimSlashes p.pieces).getLastD []) then
      (true, t.erase place.dropLast fun other => (below? place other).isSome)
    else
      (false, t.erase place fun other => other ≠ place && (below? place other).isSome)

/-- Removes a regular file; a directory stays. -/
def deleteFile (t : FileTree) (p : Path) : FileTree := if t.isFile p then (t.delete p).2 else t

/-- Sets the time of the last change. -/
def setModified (t : FileTree) (p : Path) (modified : Moment) : FileTree :=
  match t.resolve p with
  | .ok place =>
    { t with entries := t.entries.modify place fun entry => match entry with
        | .file content _ => .file content modified
        | .directory _ => .directory modified }
  | .error _ => t

end Rebuild.FileTree
