/-!
Names of types. An internal name, `com/example/Outer$Inner`, is what artifacts store; a binary
name has dots for slashes. Nested types follow their outer type after a `$`.
-/
namespace Rebuild.Name

/-- The binary spelling of an internal name. -/
def toBinary (internal : String) : String :=
  String.ofList (internal.toList.map fun c => if c = '/' then '.' else c)

/-- The internal spelling of a binary name. -/
def toInternal (binary : String) : String :=
  String.ofList (binary.toList.map fun c => if c = '.' then '/' else c)

/-- The characters after the last `sep`; all of them when there is none. -/
def afterLast (sep : Char) (cs : List Char) : List Char :=
  (cs.reverse.takeWhile (· ≠ sep)).reverse

/-- The characters up to the last `sep`, with it; none when there is no `sep`. -/
def throughLast (sep : Char) (cs : List Char) : List Char :=
  (cs.reverse.dropWhile (· ≠ sep)).reverse

/-- The package of a binary name, empty for the unnamed package. -/
def packageOf (binary : String) : String :=
  String.ofList (throughLast '.' binary.toList).dropLast

/-- The name of a type without its package and its outer types. -/
def simple (binary : String) : String :=
  String.ofList (afterLast '$' (afterLast '.' binary.toList))

/-- The directly enclosing type, where `sep` ends the package. A `$` at the very front of the
name, behind the package, separates nothing. -/
def outerChars (sep : Char) (cs : List Char) : Option (List Char) :=
  let stem := (throughLast '$' (afterLast sep cs)).dropLast
  if stem = [] then none else some (throughLast sep cs ++ stem)

/-- The binary name of the directly enclosing type. -/
def outer? (binary : String) : Option String :=
  (outerChars '.' binary.toList).map String.ofList

/-- The outermost enclosing type, where `sep` ends the package. A type whose name starts with
`$` behind the package is its own outermost type. -/
def rootChars (sep : Char) (cs : List Char) : List Char :=
  let stem := (afterLast sep cs).takeWhile (· ≠ '$')
  if stem = [] then cs else throughLast sep cs ++ stem

/-- The binary name of the outermost enclosing type, the name itself for a top-level type. -/
def root (binary : String) : String := String.ofList (rootChars '.' binary.toList)

/-- The internal name of the outermost enclosing type. -/
def rootInternal (internal : String) : String :=
  String.ofList (rootChars '/' internal.toList)

/-- Does `name` stand for `top` or for a type nested in it? -/
def isSelfOrNested (top name : String) : Bool :=
  name == top || (top.toList ++ ['$']).isPrefixOf name.toList

/-- A binary name followed by its enclosing types, innermost first, up to `n` of them. -/
def enclosingUpTo : Nat → String → List String
  | 0, binary => [binary]
  | n + 1, binary => match outer? binary with
    | none => [binary]
    | some outer => binary :: enclosingUpTo n outer

/-- A binary name followed by its enclosing types, innermost first. Each enclosing name is
shorter, so the length bounds their number. -/
def enclosing (binary : String) : List String := enclosingUpTo binary.length binary

/-- Prefixes of the packages that are never tracked as part of a workspace. -/
def defaultSystemPrefixes : List String := ["java.", "javax.", "jdk.", "sun.", "com.sun."]

/-- Does a binary name start with one of the given prefixes? -/
def isSystem (prefixes : List String) (binary : String) : Bool :=
  prefixes.any fun p => p.toList.isPrefixOf binary.toList

end Rebuild.Name
