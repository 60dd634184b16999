import Rebuild.Manifest.Level
import Rebuild.Path
import Rebuild.Text.Alphanumeric
import Rebuild.Text.Split

/-!
The logging section of a manifest, and the filter that it stands for.
-/
namespace Rebuild

structure LoggingSettings where
  /-- The level, or directives with commas between them. -/
  level : String := "info"
  /-- The levels of single targets. -/
  targets : List (String × String) := []
  json : Bool := false
  stderr : Bool := true
  file : Option Path := none

/-! ## Directives -/

namespace LoggingSettings

/-- A level under its own name. Any other text is a directive, without the blanks around it. -/
def normalize (text : String) : String :=
  let trimmed := Text.trim text
  match Text.asciiLower trimmed with
  | "" => "info"
  | "warning" => "warn"
  | lower => if (Level.ofName? lower).isSome then lower else trimmed

/-- The level and, in the order of their names, the targets. -/
def directives (s : LoggingSettings) : String :=
  let targets := s.targets.mergeSort fun a b => a.1 ≤ b.1
  String.intercalate ","
    (normalize s.level :: targets.map fun t => t.1 ++ "=" ++ normalize t.2)

end LoggingSettings

/-! ## Filters -/

/-- How much of a target is logged. A directive without a target is for all others. -/
structure LogDirective where
  target : Option String
  level : Level
  deriving DecidableEq, Repr

namespace LogDirective

/-- The characters that the name of a target, or of a level, starts with. -/
def startsName (c : Char) : Bool :=
  Text.isAlphanumeric c || c == '-' || c == ':' || c == '_'

/-- A level, a target with its level, or a target all of which is logged. What stands in front of
the name is skipped, and a directive without a name is none. Where the parts stand is counted in
the text without the blanks around it, but they are cut from the text as it was written, so that a
blank in front shifts them and one at the end belongs to the last of them. -/
def ofText? (text : String) : Option LogDirective :=
  let trimmed := (Text.trim text).toList
  let skipped := (String.ofList (trimmed.takeWhile fun c => !startsName c)).utf8ByteSize
  let name := trimmed.dropWhile fun c => !startsName c
  let target := name.takeWhile (· ≠ '=')
  let rest := Text.dropBytes skipped text.toList
  if name = [] then none
  else if target = name then
    match Level.ofText? (String.ofList rest) with
    | some level => some ⟨none, level⟩
    | none => some ⟨some (String.ofList rest), .trace⟩
  else
    let level := match Text.dropBytes ((String.ofList target).utf8ByteSize + 1) rest with
      | [] => some Level.trace
      | cs => Level.ofText? (String.ofList cs)
    level.map fun level => ⟨some (String.ofList (rest.take target.length)), level⟩

end LogDirective

abbrev LogFilter := List LogDirective

namespace LogFilter

/-- Directives with commas between them. Without any directive only errors are logged. -/
def parse? (text : String) : Option LogFilter :=
  match (Text.split ',' text).filter (· ≠ "") with
  | [] => some [⟨none, .error⟩]
  | parts => parts.mapM LogDirective.ofText?

/-- The most verbose level of all directives, also of those that a later one for the same target
takes back. -/
def maxLevel (f : LogFilter) : Level := (f.map (·.level)).foldl Level.max .off

end LogFilter

/-- The filter of some settings and of an environment variable. The environment comes last, so
that it wins. What cannot be parsed is left out, and the last resort is the level `info`. -/
def LoggingSettings.filter (s : LoggingSettings) (environment : Option String) : LogFilter :=
  let configured := s.directives
  let candidates := match (environment.map Text.trim).filter (· ≠ "") with
    | some env => [configured ++ "," ++ env, env, configured]
    | none => [configured]
  (candidates.findSome? LogFilter.parse?).getD [⟨none, .info⟩]

end Rebuild
