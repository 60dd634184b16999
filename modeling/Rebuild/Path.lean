import Rebuild.Name
import Rebuild.Text.Split

/-!
File paths. A path is its text, and nothing is normalised away in it; but paths are compared by
their components, where repeated and trailing slashes and dots for the current directory, other
than a leading one, do not count.
-/
namespace Rebuild

inductive Component where
  | root
  | current
  | parent
  | normal (name : String)
  deriving DecidableEq, Repr

namespace Component

/-- Components are ordered by kind, names among themselves by their characters. -/
def lt : Component → Component → Bool
  | normal a, normal b => a < b
  | a, b => rank a < rank b
where
  rank : Component → Nat
    | root => 0
    | current => 1
    | parent => 2
    | normal _ => 3

end Component

structure Path where
  text : String
  deriving Repr

namespace Path

instance : Inhabited Path := ⟨⟨""⟩⟩

/-! ## Pieces -/

def isAbsolute (p : Path) : Bool := p.text.toList.head? == some '/'

/-- The texts between the slashes. The slash in front of an absolute path separates nothing. -/
def pieces (p : Path) : List (List Char) :=
  Text.splitChars '/' (if p.isAbsolute then p.text.toList.tail else p.text.toList)

/-- The path of some pieces. -/
def ofPieces (absolute : Bool) (pieces : List (List Char)) : Path :=
  let text := List.intercalate ['/'] pieces
  ⟨String.ofList (if absolute then '/' :: text else text)⟩

/-- Nothing, or a dot, between two slashes says nothing. -/
def isVacuous (piece : List Char) : Bool := piece == [] || piece == ['.']

/-- Does the piece name an entry of a directory? -/
def isName (piece : List Char) : Bool := !isVacuous piece && piece != ['.', '.']

/-- Pieces without the empty ones that slashes at the end of a path leave. -/
def trimSlashes (pieces : List (List Char)) : List (List Char) :=
  (pieces.reverse.dropWhile (· == [])).reverse

def component? (piece : List Char) : Option Component :=
  if isVacuous piece then none
  else if piece = ['.', '.'] then some .parent
  else some (.normal (String.ofList piece))

/-! ## Components -/

def components (p : Path) : List Component :=
  if p.isAbsolute then .root :: p.pieces.filterMap component?
  else match p.pieces with
    | ['.'] :: rest => .current :: rest.filterMap component?
    | pieces => pieces.filterMap component?

/-- Do two texts stand for the same path? -/
def same (p q : Path) : Bool := p.components == q.components

def componentsLE : List Component → List Component → Bool
  | [], _ => true
  | _ :: _, [] => false
  | a :: as, b :: bs => a.lt b || (a == b && componentsLE as bs)

/-- The order of paths compares their components one by one. -/
def le (p q : Path) : Bool := componentsLE p.components q.components

/-- Puts a path before the first one that does not come before it. -/
def insert (p : Path) : List Path → List Path
  | [] => [p]
  | q :: rest => if p.le q then p :: q :: rest else q :: insert p rest

/-- The paths in order. Those that stand for the same path stay in the order they are given in. -/
def sort (paths : List Path) : List Path := paths.foldr insert []

theorem mem_insert {p q : Path} {paths : List Path} : q ∈ insert p paths ↔ q = p ∨ q ∈ paths := by
  induction paths with
  | nil => simp [insert]
  | cons r rest ih =>
    unfold insert
    split <;> grind

theorem mem_sort {q : Path} {paths : List Path} : q ∈ sort paths ↔ q ∈ paths := by
  induction paths with
  | nil => simp [sort]
  | cons p rest ih =>
    change q ∈ insert p (sort rest) ↔ _
    rw [mem_insert, ih, List.mem_cons]

def startsWith (p base : Path) : Bool := base.components.isPrefixOf p.components

/-- The path `q` seen from `p`: an absolute path stands for itself, any other is put behind `p`
with a slash between them, unless `p` is empty or ends in one. -/
def join (p q : Path) : Path :=
  if q.isAbsolute then q
  else if p.text.isEmpty || p.text.toList.getLast? == some '/' then ⟨p.text ++ q.text⟩
  else ⟨p.text ++ "/" ++ q.text⟩

/-! ## The last component -/

/-- Pieces, last first, from the last one that counts. A leading dot of a relative path counts. -/
def dropVacuous (absolute : Bool) (pieces : List (List Char)) : List (List Char) :=
  match pieces.dropWhile isVacuous with
  | [] => if !absolute && pieces.getLast? == some ['.'] then [['.']] else []
  | pieces => pieces

/-- The pieces of the path, last first, from the last one that counts. -/
def meaningful (p : Path) : List (List Char) := dropVacuous p.isAbsolute p.pieces.reverse

/-- The path without its last component. The root and the empty path have no parent. -/
def parent? (p : Path) : Option Path :=
  match p.meaningful with
  | [] => none
  | _ :: earlier => some (ofPieces p.isAbsolute (dropVacuous p.isAbsolute earlier).reverse)

/-- The last component, if it is a name. -/
def fileName? (p : Path) : Option String :=
  match p.components.getLast? with
  | some (.normal name) => some name
  | _ => none

/-- A file name before and behind its last dot. A name that has no dot, or only one in front,
has no extension. -/
def splitName (name : List Char) : List Char × Option (List Char) :=
  let stem := (Name.throughLast '.' name).dropLast
  if stem = [] || name = ['.', '.'] then (name, none) else (stem, some (Name.afterLast '.' name))

def extension? (p : Path) : Option String :=
  p.fileName?.bind fun name => (splitName name.toList).2.map String.ofList

def fileStem? (p : Path) : Option String :=
  p.fileName?.map fun name => String.ofList (splitName name.toList).1

/-- The path up to the stem of its file name. Without a file name nothing is cut. -/
def throughStem (p : Path) : Path :=
  match p.fileName?, p.meaningful with
  | some name, _ :: earlier => ofPieces p.isAbsolute ((splitName name.toList).1 :: earlier).reverse
  | _, _ => p

/-- The path without its extension. The extension is first cut from the end of the text, and
the dot before it then goes with the rest behind the stem. -/
def withoutExtension (p : Path) : Path :=
  match p.extension? with
  | none => p.throughStem
  | some ext =>
    throughStem ⟨String.ofList (p.text.toList.take (p.text.length - ext.length))⟩

/-! ## Relative paths -/

/-- The pieces behind the first `n` components, from the first piece that counts. -/
def dropComponents : (n : Nat) → List (List Char) → List (List Char)
  | 0, pieces => pieces.dropWhile isVacuous
  | _ + 1, [] => []
  | n + 1, piece :: rest =>
    if isVacuous piece then dropComponents (n + 1) rest else dropComponents n rest

/-- Pieces without those at the end that say nothing. -/
def trimEnd (pieces : List (List Char)) : List (List Char) :=
  (pieces.reverse.dropWhile isVacuous).reverse

/-- The path behind `base`, if it starts with `base`. -/
def relativeTo? (p base : Path) : Option Path :=
  if p.startsWith base then
    match base.components with
    | [] => some (ofPieces p.isAbsolute p.meaningful.reverse)
    | .root :: rest => some (ofPieces false (trimEnd (dropComponents rest.length p.pieces)))
    | .current :: rest =>
      some (ofPieces false (trimEnd (dropComponents rest.length p.pieces.tail)))
    | components =>
      some (ofPieces false (trimEnd (dropComponents components.length p.pieces)))
  else none

/-- Components as single texts. -/
def componentText : Component → String
  | .root => "/"
  | .current => "."
  | .parent => ".."
  | .normal name => name

end Path

end Rebuild
