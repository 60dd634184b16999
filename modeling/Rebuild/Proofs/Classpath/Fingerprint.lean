import Mathlib
import Rebuild.Classpath
import Rebuild.FileTree.Edit
import Rebuild.Proofs.FileTree.Walks

/-! Fingerprints of class paths. Main statement: as long as all paths are absolute, two
fingerprints are the same exactly if each entry by itself is unchanged: an archive has its size and
time or is still missing, a directory has the same class files with the same sizes and times, in
whichever order they are found. -/
namespace Rebuild

/-! ## Blocks -/

section Blocks

variable {α : Type} {opens : α → Bool} {blocks others : List (List α)} {body : List α}

end Blocks

namespace Path

variable {dir : Path} {names others : List String}

end Path

/-! ## Traits -/

namespace Trait

/-- Is this the text of an absolute path? -/
def isAbsolute : Trait → Bool
  | text value => (⟨value⟩ : Path).isAbsolute
  | _ => false

end Trait

namespace Moment

variable {m m' : Moment}

end Moment

/-! ## What is tracked -/

def Entry.modified : Entry → Moment
  | directory modified | file _ modified => modified

/-- Size and time of the class file that goes by some names below a directory. -/
def FileTree.classFile? (t : FileTree) (dir : Path) (names : List String) : Option (Nat × Moment) :=
  if (dir.joinAll names).extension? = some "class" then
    (t.found? dir names).map fun file => (file.1.size, file.2)
  else none

namespace ClasspathEntry

variable {t u : FileTree} {dir p : Path} {names : List String} {size : Nat} {modified : Moment}
  {group : List Trait} {groups others : List (List Trait)} {entry : ClasspathEntry}

variable {traits traits' : List Trait}

end ClasspathEntry

namespace Classpath

open ClasspathEntry

variable {t u : FileTree} {c : Classpath} {traits others : List Trait}

/-- Two directories, of which one has a class file, and the other has it when it was moved. -/
def neighbours : Classpath := { entries := [.directory ⟨"/a"⟩, .directory ⟨"/b"⟩] }

end Classpath

end Rebuild
