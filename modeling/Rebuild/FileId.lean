import Rebuild.Ascending

/-!
Source files by number. A workspace numbers its files densely from zero.
-/
namespace Rebuild

/-- The number of a source file. -/
abbrev FileId := Nat

/-- A set of files, in ascending order. -/
abbrev FileSet := List FileId

/-- How reports name a file that they know by its number only. -/
def FileId.display (file : FileId) : String := s!"file#{file}"

end Rebuild
