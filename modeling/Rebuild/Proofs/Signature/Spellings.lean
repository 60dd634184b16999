import Mathlib
import Rebuild.Proofs.Signature.Parts
import Rebuild.Proofs.Text.Parsing
import Rebuild.Signature.Printer

/-! The texts that a signature may be spelled as: an empty list of type arguments or of type
parameters, which is not written at all, may also stand there as empty angle brackets. Main
statement: apart from such brackets a signature has one spelling, the text that is written. -/
namespace Rebuild

/-- A list in angle brackets. An empty list may be left out. -/
def angleList : List (Language Char) → Language Char
  | [] => {[], ['<', '>']}
  | items => {['<']} * items.prod * {['>']}

mutual

/-- The spellings of a type of references. -/
def ReferenceType.spellings : ReferenceType → Language Char
  | .ofClass type => ClassType.spellings type
  | .array component => {['[']} * ValueType.spellings component
  | .typeVariable name => {'T' :: name.toList ++ [';']}

def ClassType.spellings : ClassType ReferenceType → Language Char
  | ⟨outer, nested⟩ =>
    {['L']} * ClassSegment.spellings outer * (ClassSegment.eachNested nested).prod * {[';']}

def ClassSegment.spellings : ClassSegment ReferenceType → Language Char
  | ⟨name, args⟩ => {name.toList} * angleList (TypeArgument.each args)

/-- Each nested name with the dot in front of it. -/
def ClassSegment.eachNested : List (ClassSegment ReferenceType) → List (Language Char)
  | [] => []
  | segment :: rest => {['.']} * ClassSegment.spellings segment :: ClassSegment.eachNested rest

def TypeArgument.each : List (TypeArgument ReferenceType) → List (Language Char)
  | [] => []
  | arg :: rest => TypeArgument.spellings arg :: TypeArgument.each rest

def TypeArgument.spellings : TypeArgument ReferenceType → Language Char
  | .any => {['*']}
  | .exact type => ReferenceType.spellings type
  | .upper bound => {['+']} * ReferenceType.spellings bound
  | .lower bound => {['-']} * ReferenceType.spellings bound

def ValueType.spellings : ValueType ReferenceType → Language Char
  | .base type => {[type.letter]}
  | .reference type => ReferenceType.spellings type

end

theorem ClassSegment.eachNested_eq (nested : List (ClassSegment ReferenceType)) :
    eachNested nested = nested.map fun segment => {['.']} * segment.spellings := by
  induction nested with
  | nil => rfl
  | cons segment nested ih => rw [eachNested, ih, List.map_cons]

theorem TypeArgument.each_eq (args : List (TypeArgument ReferenceType)) :
    each args = args.map spellings := by
  induction args with
  | nil => rfl
  | cons arg args ih => rw [each, ih, List.map_cons]

namespace TypeParameter

def spellings (p : TypeParameter) : Language Char :=
  {p.name.toList} * ({[':']} * p.classBound.elim 1 ReferenceType.spellings) *
    (p.interfaceBounds.map fun bound => {[':']} * bound.spellings).prod

def listSpellings (params : List TypeParameter) : Language Char :=
  angleList (params.map spellings)

end TypeParameter

def ClassSignature.spellings (s : ClassSignature) : Language Char :=
  TypeParameter.listSpellings s.typeParams * s.superClass.spellings *
    (s.interfaces.map ClassType.spellings).prod

def MethodSignature.spellings (s : MethodSignature) : Language Char :=
  TypeParameter.listSpellings s.typeParams *
    ({['(']} * (s.params.map ValueType.spellings).prod) *
    ({[')']} * s.returns.elim {['V']} ValueType.spellings) *
    (s.thrown.map fun type => {['^']} * type.spellings).prod

/-! ## The spelling without empty brackets -/

/-- Of the texts of a language, this one alone may be free of empty angle brackets. -/
structure Standard (language : Language Char) (text : List Char) : Prop where
  mem : text ∈ language
  eq : ∀ other ∈ language, ¬ ['<', '>'] <:+: other → other = text

namespace Standard

variable {first second : Language Char} {text more : List Char}

theorem singleton (text : List Char) : Standard {text} text := ⟨rfl, fun _ h _ => h⟩

theorem one : Standard 1 [] := singleton []

theorem mul (h : Standard first text) (h' : Standard second more) :
    Standard (first * second) (text ++ more) where
  mem := Language.append_mem_mul h.mem h'.mem
  eq := by
    intro other hother hbare
    obtain ⟨a, ha, b, hb, rfl⟩ := Language.mem_mul.mp hother
    rw [h.eq a ha fun hbrackets => hbare (hbrackets.trans (List.infix_append_left ..)),
      h'.eq b hb fun hbrackets => hbare (hbrackets.trans (List.infix_append_right ..))]

theorem prod {α : Type} {items : List α} {spellings : α → Language Char} {write : α → List Char}
    (h : ∀ a ∈ items, Standard (spellings a) (write a)) :
    Standard (items.map spellings).prod (items.flatMap write) := by
  induction items with
  | nil => exact one
  | cons a items ih =>
    rw [List.map_cons, List.prod_cons, List.flatMap_cons]
    exact (h a List.mem_cons_self).mul (ih fun b hb => h b (List.mem_cons_of_mem a hb))

theorem angleList_nil : Standard (angleList []) [] where
  mem := .inl rfl
  eq := by
    rintro _ (rfl | rfl) hbare
    · rfl
    · exact absurd List.infix_rfl hbare

theorem angleList_cons {items : List (Language Char)} (h : Standard (first :: items).prod text) :
    Standard (angleList (first :: items)) ('<' :: text ++ ['>']) :=
  ((singleton ['<']).mul h).mul (singleton ['>'])

end Standard

mutual

theorem ReferenceType.standard : ∀ type : ReferenceType, Standard type.spellings type.signature
  | .ofClass type => ClassType.standard type
  | .array component => (Standard.singleton ['[']).mul (ValueType.standard component)
  | .typeVariable _ => .singleton _

theorem ClassType.standard :
    ∀ type : ClassType ReferenceType, Standard type.spellings type.signature
  | ⟨outer, nested⟩ =>
    (((Standard.singleton ['L']).mul (ClassSegment.standard outer)).mul
      (ClassSegment.nested_standard nested)).mul (.singleton [';'])

theorem ClassSegment.standard :
    ∀ segment : ClassSegment ReferenceType, Standard segment.spellings segment.signature
  | ⟨name, args⟩ => (Standard.singleton name.toList).mul (TypeArgument.list_standard args)

theorem ClassSegment.nested_standard : ∀ nested : List (ClassSegment ReferenceType),
    Standard (ClassSegment.eachNested nested).prod (ClassSegment.signatures nested)
  | [] => .one
  | segment :: rest => by
    rw [ClassSegment.eachNested, List.prod_cons]
    exact ((Standard.singleton ['.']).mul (ClassSegment.standard segment)).mul
      (ClassSegment.nested_standard rest)

theorem TypeArgument.list_standard : ∀ args : List (TypeArgument ReferenceType),
    Standard (angleList (TypeArgument.each args)) (TypeArgument.list args)
  | [] => .angleList_nil
  | arg :: rest => by
    refine Standard.angleList_cons ?_
    rw [List.prod_cons]
    exact (TypeArgument.standard arg).mul (TypeArgument.each_standard rest)

theorem TypeArgument.each_standard : ∀ args : List (TypeArgument ReferenceType),
    Standard (TypeArgument.each args).prod (TypeArgument.signatures args)
  | [] => .one
  | arg :: rest => by
    rw [TypeArgument.each, List.prod_cons]
    exact (TypeArgument.standard arg).mul (TypeArgument.each_standard rest)

theorem TypeArgument.standard :
    ∀ arg : TypeArgument ReferenceType, Standard arg.spellings arg.signature
  | .any => .singleton ['*']
  | .exact type => ReferenceType.standard type
  | .upper bound => (Standard.singleton ['+']).mul (ReferenceType.standard bound)
  | .lower bound => (Standard.singleton ['-']).mul (ReferenceType.standard bound)

theorem ValueType.standard :
    ∀ type : ValueType ReferenceType, Standard type.spellings type.signature
  | .base type => .singleton [type.letter]
  | .reference type => ReferenceType.standard type

end

theorem TypeParameter.standard (p : TypeParameter) : Standard p.spellings p.signature := by
  have hinterfaces : Standard (p.interfaceBounds.map fun bound => {[':']} * bound.spellings).prod
      (p.interfaceBounds.flatMap fun bound => ':' :: bound.signature) :=
    .prod fun bound _ => (Standard.singleton [':']).mul bound.standard
  refine Standard.mul ?_ hinterfaces
  refine (Standard.singleton _).mul ((Standard.singleton [':']).mul ?_)
  cases p.classBound with
  | none => exact .one
  | some bound => exact bound.standard

theorem TypeParameter.list_standard (params : List TypeParameter) :
    Standard (listSpellings params) (list params) := by
  have hparams : Standard (params.map spellings).prod (params.flatMap signature) :=
    .prod fun p _ => p.standard
  cases params with
  | nil => exact .angleList_nil
  | cons p params => exact .angleList_cons hparams

theorem ClassSignature.standard (s : ClassSignature) : Standard s.spellings s.signature :=
  ((TypeParameter.list_standard s.typeParams).mul s.superClass.standard).mul
    (.prod fun c _ => c.standard)

theorem MethodSignature.standard (s : MethodSignature) : Standard s.spellings s.signature := by
  have hparams : Standard (s.params.map ValueType.spellings).prod
      (s.params.flatMap ValueType.signature) := .prod fun type _ => type.standard
  have hthrown : Standard (s.thrown.map fun type => {['^']} * type.spellings).prod
      (s.thrown.flatMap fun type => '^' :: type.signature) :=
    .prod fun type _ => (Standard.singleton ['^']).mul type.standard
  refine Standard.mul ?_ hthrown
  refine ((TypeParameter.list_standard _).mul ((Standard.singleton ['(']).mul hparams)).mul ?_
  refine (Standard.singleton [')']).mul ?_
  cases s.returns with
  | none => exact .singleton ['V']
  | some type => exact type.standard

end Rebuild
