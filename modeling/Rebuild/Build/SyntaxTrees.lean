import Rebuild.Build.Session

/-!
Parse trees on demand. The tree of a file is kept until the file is edited, compiled or removed.
-/
namespace Rebuild.Build

/-- Where the tree of a file comes from. -/
inductive TreeLookup (τ : Type) where
  | kept (tree : τ)
  /-- The parser was called. It gives no tree for some texts. -/
  | parsed (tree : Option τ)
  | unreadable
  deriving Repr

namespace TreeLookup

def tree? : TreeLookup τ → Option τ
  | kept tree => some tree
  | parsed tree => tree
  | unreadable => none

end TreeLookup

/-- The tree of a file, which is parsed if no tree is kept. -/
def Session.syntaxTree (parse : Path → String → Option τ) (file : FileId) (p : Path)
    (s : Session τ) : TreeLookup τ × Session τ :=
  match s.cache.tree? file with
  | some tree => (.kept tree, s)
  | none =>
    match s.tree.readText p with
    | .error _ => (.unreadable, s)
    | .ok text =>
      match parse p text with
      | none => (.parsed none, s)
      | some tree => (.parsed (some tree), { s with cache := s.cache.setTree file tree })

end Rebuild.Build
