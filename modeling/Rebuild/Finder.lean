import Rebuild.Dict

/-!
Sources of artifacts.
-/
namespace Rebuild

/-- Finds the artifact of a class by its internal name. What it has seen may change the state
`φ` in which it searches the next time. -/
structure Finder (φ : Type) where
  find : String → φ → Option (List UInt8) × φ
  /-- An upper bound on the number of bytes of all artifacts that can be found. -/
  volume : φ → Nat

/-- Artifacts by internal name, where `none` stands for one that cannot be read, and the names
that were asked for, oldest first. -/
structure ArtifactStore where
  artifacts : Dict String (Option (List UInt8)) := .empty
  asked : List String := []

namespace ArtifactStore

def find (internal : String) (s : ArtifactStore) : Option (List UInt8) × ArtifactStore :=
  ((s.artifacts.get? internal).join, { s with asked := s.asked ++ [internal] })

def volume (s : ArtifactStore) : Nat :=
  (s.artifacts.values.map fun artifact => (artifact.getD []).length).foldr (· + ·) 0

/-- Finds what is in the store. -/
def finder : Finder ArtifactStore := ⟨find, volume⟩

end ArtifactStore

end Rebuild
