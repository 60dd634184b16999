import Rebuild.Toml.Value

/-!
Putting tables together. A table may be written in several places, but each table has one place
that defines it, and a key has one value. Main rule: dotted keys add to tables that dotted keys
made, and headers to anything but values; neither redefines what the other one defined.
-/
namespace Rebuild.Toml

/-- How a table came about. -/
inductive Origin where
  /-- It has a header. -/
  | header
  /-- A header below it mentions it. -/
  | mentioned
  /-- Dotted keys mention it. -/
  | dotted
  deriving DecidableEq, Repr

/-- What a key of a document stands for while the document is read. -/
inductive Item where
  | value (v : Value)
  | table (origin : Origin) (entries : List (String × Item))
  /-- Tables under headers in double brackets, first one first. -/
  | tables (elements : List (List (String × Item)))

abbrev Items := List (String × Item)

/-- A key with the keys of the tables around it, and its value. -/
structure Pair where
  path : List String
  key : String
  value : Value

/-! ## Results -/

mutual

def Item.toValue : Item → Value
  | .value v => v
  | .table _ entries => .table (Item.toEntries entries)
  | .tables elements => .array (Item.toTables elements)

def Item.toEntries : List (String × Item) → List (String × Value)
  | [] => []
  | (key, item) :: rest => (key, item.toValue) :: Item.toEntries rest

def Item.toTables : List (List (String × Item)) → List Value
  | [] => []
  | entries :: rest => .table (Item.toEntries entries) :: Item.toTables rest

end

namespace Items

/-! ## Pairs -/

/-- A key that is new to a table gets its value. -/
def addNew (key : String) (v : Value) (items : Items) : Option Items :=
  match Dict.find key items with
  | none => some (Dict.putEntries key (.value v) items)
  | some _ => none

/-- Adds a value below tables. Only a table of dotted keys takes a dotted key, and none of the
tables on the way has a header. -/
def addBelow (key : String) (v : Value) : (inDotted : Bool) → (path : List String) → Items →
    Option Items
  | inDotted, [], items => if inDotted then addNew key v items else none
  | _, k :: path, items =>
    match Dict.find k items with
    | none => (addBelow key v true path []).map fun sub =>
        Dict.putEntries k (.table .dotted sub) items
    | some (.table .header _) => none
    | some (.table origin sub) =>
      (addBelow key v (origin == .dotted) path sub).map fun sub =>
        Dict.putEntries k (.table origin sub) items
    | some (.tables elements) =>
      match elements.getLast? with
      | none => none
      | some last => (addBelow key v false path last).map fun last =>
        Dict.putEntries k (.tables (elements.dropLast ++ [last])) items
    | some (.value _) => none

/-- Adds a key to the table that is being defined. -/
def add (items : Items) (pair : Pair) : Option Items :=
  match pair.path with
  | [] => addNew pair.key pair.value items
  | path => addBelow pair.key pair.value false path items

/-- Adds keys one after the other. -/
def addAll (items : Items) (pairs : List Pair) : Option Items := pairs.foldlM add items

/-! ## Sections -/

/-- Changes the table at the end of a path. Tables that are missing on the way are made, and of
tables in double brackets the last one is meant. -/
def alter (change : Items → Option Items) : (path : List String) → Items → Option Items
  | [], items => change items
  | k :: path, items =>
    match Dict.find k items with
    | none => (alter change path []).map fun sub =>
        Dict.putEntries k (.table .mentioned sub) items
    | some (.table origin sub) => (alter change path sub).map fun sub =>
        Dict.putEntries k (.table origin sub) items
    | some (.tables elements) =>
      match elements.getLast? with
      | none => none
      | some last => (alter change path last).map fun last =>
        Dict.putEntries k (.tables (elements.dropLast ++ [last])) items
    | some (.value _) => none

/-- Defines a table. It may be mentioned before by headers only. -/
def define (key : String) (pairs : List Pair) (items : Items) : Option Items :=
  let start : Option Items := match Dict.find key items with
    | none => some []
    | some (.table .mentioned sub) => some sub
    | some _ => none
  (start.bind fun sub => addAll sub pairs).map fun sub =>
    Dict.putEntries key (.table .header sub) items

/-- Appends a table to those with the same header in double brackets. -/
def append (key : String) (pairs : List Pair) (items : Items) : Option Items :=
  let earlier : Option (List Items) := match Dict.find key items with
    | none => some []
    | some (.tables elements) => some elements
    | some _ => none
  earlier.bind fun elements => (addAll [] pairs).map fun last =>
    Dict.putEntries key (.tables (elements ++ [last])) items

end Items

/-- A header with the pairs below it. -/
structure Section where
  path : List String
  key : String
  /-- The header has double brackets. -/
  repeated : Bool
  pairs : List Pair

def Section.addTo (items : Items) (s : Section) : Option Items :=
  Items.alter (if s.repeated then Items.append s.key s.pairs else Items.define s.key s.pairs)
    s.path items

/-- The table of a document: the pairs before the first header, and the sections. -/
def assemble (pairs : List Pair) (sections : List Section) : Option Entries := do
  let top ← Items.addAll [] pairs
  return Item.toEntries (← sections.foldlM Section.addTo top)

/-- The table that pairs in braces make. -/
def inlineTable (pairs : List Pair) : Option Value :=
  (Items.addAll [] pairs).map fun items => .table (Item.toEntries items)

end Rebuild.Toml
