import Rebuild.Dict

/-!
TOML values.
-/
namespace Rebuild.Toml

inductive Value where
  | string (text : String)
  | integer (value : Int)
  /-- A number with a fraction or an exponent, an infinity, or no number, as it was written. -/
  | float (text : String)
  | boolean (value : Bool)
  /-- A date, a time or both, in its canonical spelling. -/
  | date (text : String)
  | array (elements : List Value)
  | table (entries : List (String × Value))

/-- The entries of a table, each key once. -/
abbrev Entries := List (String × Value)

end Rebuild.Toml
