import Rebuild.FileId
import Rebuild.Path

/-!
The numbering of source files. A path gets a number when it is first seen and keeps it.
-/
namespace Rebuild.Workspace

/-- The paths seen so far, each at its number, in the spelling first seen. -/
structure FileRegistry where
  paths : List Path := []

namespace FileRegistry

/-- The number of a path that has one. -/
def id? (r : FileRegistry) (p : Path) : Option FileId :=
  r.paths.findIdx? fun q => q.components = p.components

/-- The number of a path, a new one if it has none. -/
def register (r : FileRegistry) (p : Path) : FileId × FileRegistry :=
  match r.id? p with
  | some id => (id, r)
  | none => (r.paths.length, { r with paths := r.paths ++ [p] })

/-- The path with a given number. -/
def path? (r : FileRegistry) (file : FileId) : Option Path := r.paths[file]?

def size (r : FileRegistry) : Nat := r.paths.length

end FileRegistry

end Rebuild.Workspace
