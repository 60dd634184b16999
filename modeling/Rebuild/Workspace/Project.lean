import Rebuild.Classpath

/-!
Projects: where the sources of a project lie, where its artifacts go, and what it builds on.
-/
namespace Rebuild

structure Project where
  name : String
  sourceRoot : Path
  buildRoot : Path
  /-- The entries for libraries, without the build root. -/
  libraries : List ClasspathEntry := []
  /-- The names of the projects it builds on, which need not exist. -/
  dependsOn : List String := []

namespace Project

/-- The build root, then the libraries. -/
def ownClasspath (p : Project) : List ClasspathEntry := .directory p.buildRoot :: p.libraries

/-- Does a path lie at or below the source root? -/
def containsSource (p : Project) (source : Path) : Bool := source.startsWith p.sourceRoot

end Project

end Rebuild
