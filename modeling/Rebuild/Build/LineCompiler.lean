import Rebuild.Artifact.Writer
import Rebuild.Build.Compiler

/-!
A compiler of sources with one directive a line. A source has no text but its declarations:

    extends p.Base
    implements p.Iface
    field name: p.Type
    method name(p.Arg, int): p.Ret
    inner Name
    uses p.Other
    error message
-/
namespace Rebuild.Build

open Artifact (ClassDescription InnerClass Member)

/-- The directives of a source. -/
structure Outline where
  /-- The base type; the last one given counts. -/
  base : Option String := none
  interfaces : List String := []
  fields : List (String × String) := []
  methods : List (String × List String × String) := []
  inner : List String := []
  uses : List String := []
  errors : List String := []
  deriving DecidableEq, Repr

/-- Why a line is no directive. -/
inductive LineError where
  | fieldWithoutType
  | methodWithoutParameters
  | unclosedParameters
  | unknownDirective (word : String)
  deriving DecidableEq, Repr

def LineError.message : LineError → String
  | fieldWithoutType => "field needs a type"
  | methodWithoutParameters => "method needs parameters"
  | unclosedParameters => "unclosed parameter list"
  | unknownDirective word => "unknown directive `" ++ word ++ "`"

namespace Outline

/-! ## Reading -/

def addField (o : Outline) (rest : String) : Except LineError Outline :=
  match Text.splitFirst ':' rest with
  | none => .error .fieldWithoutType
  | some (name, type) => .ok { o with fields := o.fields ++ [(Text.trim name, Text.trim type)] }

/-- The type after a parameter list, behind colons. A method without one returns nothing. -/
def returnType (rest : String) : String :=
  let type := Text.trim (String.ofList ((Text.trim rest).toList.dropWhile (· = ':')))
  if type = "" then "void" else type

def addMethod (o : Outline) (rest : String) : Except LineError Outline :=
  match Text.splitFirst '(' rest with
  | none => .error .methodWithoutParameters
  | some (name, rest) =>
    match Text.splitFirst ')' rest with
    | none => .error .unclosedParameters
    | some (params, rest) =>
      let params := ((Text.split ',' params).map Text.trim).filter (· ≠ "")
      .ok { o with methods := o.methods ++ [(Text.trim name, params, returnType rest)] }

/-- Takes in a line without blanks around it. Empty lines and comments say nothing. -/
def addLine (o : Outline) (line : String) : Except LineError Outline :=
  if line = "" || ['/', '/'].isPrefixOf line.toList then .ok o
  else
    let (directive, rest) := (Text.splitFirst ' ' line).getD (line, "")
    let rest := Text.trim rest
    match directive with
    | "extends" => .ok { o with base := some rest }
    | "implements" => .ok { o with interfaces := o.interfaces ++ [rest] }
    | "inner" => .ok { o with inner := o.inner ++ [rest] }
    | "uses" => .ok { o with uses := o.uses ++ [rest] }
    | "error" => .ok { o with errors := o.errors ++ [rest] }
    | "field" => o.addField rest
    | "method" => o.addMethod rest
    | word => .error (.unknownDirective word)

def parse (text : String) : Except LineError Outline :=
  ((Text.lines text).map Text.trim).foldlM addLine {}

/-! ## Types -/

/-- The letter of a base type in descriptors, where `void` counts as one. -/
def baseLetter? : String → Option String
  | "void" => some "V"
  | "boolean" => some "Z"
  | "byte" => some "B"
  | "char" => some "C"
  | "short" => some "S"
  | "int" => some "I"
  | "long" => some "J"
  | "float" => some "F"
  | "double" => some "D"
  | _ => none

/-- A type and how many pairs of brackets end it, by its characters from the last. -/
def splitBrackets : List Char → Nat × List Char
  | ']' :: '[' :: rest =>
    let (dimensions, element) := splitBrackets rest
    (dimensions + 1, element)
  | element => (0, element)

/-- The dimensions and the element of a type. -/
def dimensions (type : String) : Nat × String :=
  let (dimensions, element) := splitBrackets type.toList.reverse
  (dimensions, String.ofList element.reverse)

def descriptor (type : String) : String :=
  let (dimensions, element) := dimensions type
  let letter := (baseLetter? element).getD ("L" ++ Name.toInternal element ++ ";")
  String.ofList (List.replicate dimensions '[') ++ letter

/-- The types that a source refers to, arrays by their elements, without the base types. -/
def referencedTypes (o : Outline) : List String :=
  let methodTypes := o.methods.flatMap fun (_, params, returns) => params ++ [returns]
  let all := o.base.toList ++ o.interfaces ++ o.uses ++ o.fields.map Prod.snd ++ methodTypes
  (all.map fun type => (dimensions type).2).filter fun type => (baseLetter? type).isNone

/-! ## Artifacts -/

def member (name descriptor : String) : Member where
  access := 0x0001
  name
  descriptor
  signature := none
  thrown := []

def nestedName (internal name : String) : String := internal ++ "$" ++ name

/-- The entry for a nested type, which is public and static. -/
def innerClass (internal name : String) : InnerClass where
  inner := nestedName internal name
  outer := some internal
  name := some name
  access := 0x0009

def methodDescriptor (params : List String) (returns : String) : String :=
  "(" ++ String.join (params.map descriptor) ++ ")" ++ descriptor returns

/-- The artifact of the type itself. -/
def description (o : Outline) (internal : String) : ClassDescription where
  thisClass := internal
  superClass := some ((o.base.map Name.toInternal).getD "java/lang/Object")
  interfaces := o.interfaces.map Name.toInternal
  fields := o.fields.map fun (name, type) => member name (descriptor type)
  methods := o.methods.map fun (name, params, returns) =>
    member name (methodDescriptor params returns)
  symbols := o.uses.map fun type => .type (Name.toInternal type)
  innerClasses := o.inner.map (innerClass internal)

/-- The artifact of a nested type. -/
def nestedDescription (internal name : String) : ClassDescription where
  thisClass := nestedName internal name
  innerClasses := [innerClass internal name]

/-- The artifacts of a source, nested types first, by internal names. -/
def artifacts (o : Outline) (internal : String) : List (String × List UInt8) :=
  (o.inner.map fun name => (nestedName internal name, (nestedDescription internal name).encode))
    ++ [(internal, (o.description internal).encode)]

end Outline

/-! ## Compiling -/

namespace LineCompiler

variable {τ : Type}

/-- Where the artifact of a type is written. -/
def artifactPath (r : CompileRequest) (internal : String) : Path :=
  r.buildRoot.join ⟨Classpath.artifactName internal⟩

def failure (status : CompileStatus) (p : Path) (message : String) : CompileOutput where
  status
  diagnostics := [⟨p, .zero, .error, message, some "toyc"⟩]

/-- Can the type be left unresolved? So can the platform's types, and those of the source. -/
def isExempt (binary type : String) : Bool :=
  "java.".toList.isPrefixOf type.toList || Name.root type == binary

/-- The first of some types that the class path lacks. -/
def firstMissing (t : FileTree) (binary : String) : Classpath → List String → Option String
  | _, [] => none
  | c, type :: rest =>
    if isExempt binary type then firstMissing t binary c rest
    else match c.find t (Name.toInternal type) with
      | (some _, c) => firstMissing t binary c rest
      | (none, _) => some type

/-- Writes the artifacts of a source. The type itself is reported first. -/
def emit (r : CompileRequest) (o : Outline) (internal : String) : List Event × CompileOutput :=
  let main := artifactPath r internal
  let nested := o.inner.map fun name => artifactPath r (Outline.nestedName internal name)
  ((o.artifacts internal).map fun (name, data) => .write (artifactPath r name) data,
    { status := .success, artifacts := main :: nested })

/-- Compiles an outline. A type that is missing may still be compiled if its source is there. -/
def compileOutline (r : CompileRequest) (s : Session τ) (binary : String) (o : Outline) :
    List Event × CompileOutput :=
  match o.errors with
  | message :: _ => ([], failure .fatal r.path message)
  | [] =>
    match firstMissing s.tree binary { entries := r.classpath } o.referencedTypes with
    | some type =>
      let status : CompileStatus :=
        if (s.workspace.sourceForType? s.tree type).isSome then .retryable else .fatal
      ([], failure status r.path ("cannot find symbol " ++ type))
    | none => emit r o (Name.toInternal binary)

/-- Compiles a source file: what it writes, and what it answers. -/
def compile (r : CompileRequest) (s : Session τ) : List Event × CompileOutput :=
  match s.workspace.typeOfSource? r.path with
  | none => ([], failure .fatal r.path "not a source file")
  | some binary =>
    match s.tree.readText r.path with
    | .error fault => ([], failure .fatal r.path fault.message)
    | .ok text =>
      match Outline.parse text with
      | .error e => ([], failure .fatal r.path e.message)
      | .ok o => compileOutline r s binary o

end LineCompiler

/-- Compiles line by line and keeps no state. -/
def lineCompiler : Compiler Unit τ where
  compile r s _ :=
    let (events, output) := LineCompiler.compile r s
    ⟨events, output, ()⟩

end Rebuild.Build
