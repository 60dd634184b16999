import Mathlib
import Rebuild.Declaration.Table
import Rebuild.Proofs.Declaration.Brackets
import Rebuild.Proofs.Signature.Parts

/-! How identifiers are spelled. Main statements: where names are plain and no type has the name of
a package, an identifier tells the kind of its declaration and the types that it is made from. -/
namespace Rebuild

open Artifact (ClassFile)
open Brackets (Balanced Sealed)

/-! ## Names -/

namespace Name

/-- The characters that identifiers have between names. -/
def marks : List Char := ['#', '!', '@', ':', '(', ')', '[', ']', '<', '>', ',', '?']

/-- A name in which none of them occurs. -/
def Plain (name : String) : Prop := ∀ c ∈ name.toList, c ∉ marks

instance : DecidablePred Plain := fun name =>
  inferInstanceAs (Decidable (∀ c ∈ name.toList, c ∉ marks))

/-- The last mark of a text. -/
def lastMark (cs : List Char) : Option Char := cs.reverse.find? (· ∈ marks)

theorem Plain.lastMark_eq {name : String} (h : Plain name) : lastMark name.toList = none := by
  simpa [lastMark, Plain] using h

theorem lastMark_append (cs : List Char) {m : Char} (hm : m ∈ marks) {name : String}
    (h : Plain name) : lastMark (cs ++ m :: name.toList) = some m := by
  have hnone : name.toList.reverse.find? (· ∈ marks) = none := by
    simpa [Plain] using h
  simp [lastMark, List.find?_append, hnone, hm]

/-- What stands in front of the first mark. -/
theorem Plain.cancel {x y : String} (hx : Plain x) (hy : Plain y) {m : Char} (hm : m ∈ marks)
    {u v : List Char} (h : x.toList ++ m :: u = y.toList ++ m :: v) : x = y ∧ u = v := by
  rcases List.append_eq_append_iff.mp h with ⟨as, has, hrest⟩ | ⟨bs, hbs, hrest⟩
  · cases as with
    | nil => exact ⟨String.ext (by simpa using has.symm), by simpa using hrest⟩
    | cons c as =>
      obtain ⟨rfl, -⟩ : m = c ∧ u = as ++ m :: v := by simpa using hrest
      exact absurd hm (hy m (by simp [has]))
  · cases bs with
    | nil => exact ⟨String.ext (by simpa using hbs), by simpa [eq_comm] using hrest⟩
    | cons c bs =>
      obtain ⟨rfl, -⟩ : m = c ∧ v = bs ++ m :: u := by simpa using hrest
      exact absurd hm (hx m (by simp [hbs]))

theorem plain_toString (n : Nat) : Plain (toString n) := by
  intro c hc hmark
  have hdigits : (toString n).toList = Nat.toDigits 10 n := by simp
  rw [hdigits] at hc
  have hdigit : c.isDigit = true := Nat.isDigit_of_mem_toDigits (by decide) (by decide) hc
  simp only [marks, List.mem_cons, List.not_mem_nil, or_false] at hmark
  rcases hmark with rfl | rfl | rfl | rfl | rfl | rfl | rfl | rfl | rfl | rfl | rfl | rfl <;>
    simp at hdigit

end Name

open Name (Plain)

/-- A descriptor whose object type, if it mentions one, has a name with some property. -/
def FieldType.Within (word : String → Prop) (t : FieldType) : Prop :=
  ∀ internal, t.objectName? = some internal → word (Name.toBinary internal)

/-! ## Vocabularies -/

/-- The names that may stand in identifiers. -/
structure Vocabulary where
  /-- Names of members and variables, and of the types of parameters. -/
  word : String → Prop
  /-- Binary names of types. -/
  type : String → Prop
  package : String → Prop

namespace Vocabulary

/-- All names. -/
def all : Vocabulary := ⟨fun _ => True, fun _ => True, fun _ => True⟩

/-- Names are plain, and no type has the name of a package. -/
structure Clear (V : Vocabulary) : Prop where
  word_plain : ∀ w, V.word w → Plain w
  type_plain : ∀ b, V.type b → Plain b
  package_plain : ∀ q, V.package q → Plain q
  apart : ∀ b, V.type b → ¬ V.package b

end Vocabulary

/-! ## Spelling -/

/-- The identifier of an executable. -/
def executableId (owner name : String) (params : List FieldType) : String :=
  owner ++ "#" ++ name ++ "(" ++ String.intercalate "," (params.map FieldType.display) ++ ")"

/-- The identifier of a parameterized type. -/
def parameterizedId (base : String) (args : List (TypeArgument Declaration)) : String :=
  base ++ "<" ++ String.intercalate "," (args.map TypeArgument.fragment) ++ ">"

/-- The identifier of a declaration is put together from names of a vocabulary, as its kind and
the declarations that it is made from want it. -/
inductive Spelled (V : Vocabulary) : Declaration → Prop
  | package {d} (hkind : d.kind = .package) (hid : V.package d.id) : Spelled V d
  | type {d} (hkind : d.kind = .type) (hid : V.type d.id) : Spelled V d
  | field {d owner name} (hkind : d.kind = .field) (howner : V.type owner) (hname : V.word name)
      (hid : d.id = owner ++ "#" ++ name) : Spelled V d
  | method {d owner name params} (hkind : d.kind = .method) (howner : V.type owner)
      (hname : V.word name) (hparams : ∀ t ∈ params, FieldType.Within V.word t)
      (hid : d.id = executableId owner name params) : Spelled V d
  | constructor {d owner params} (hkind : d.kind = .constructor) (howner : V.type owner)
      (hparams : ∀ t ∈ params, FieldType.Within V.word t)
      (hid : d.id = executableId owner "<init>" params) : Spelled V d
  | typeVariable {d owner name} (hkind : d.kind = .typeVariable) (howner : Spelled V owner)
      (hname : V.word name) (hid : d.id = owner.id ++ "!" ++ name) : Spelled V d
  | localVariable {d owner name} {slot : Nat} (hkind : d.kind = .localVariable)
      (howner : Spelled V owner) (hname : V.word name)
      (hid : d.id = owner.id ++ "@" ++ name ++ ":" ++ toString slot) : Spelled V d
  | array {d component} (hkind : d.kind = .array) (howner : d.owner = some component)
      (hcomponent : Spelled V component) (hid : d.id = component.id ++ "[]") : Spelled V d
  | parameterized {d base} (hkind : d.kind = .parameterized) (howner : d.owner = some base)
      (hbase : Spelled V base) (hne : d.args ≠ [])
      (hargs : ∀ a ∈ d.args, ∀ e, a.type? = some e → Spelled V e)
      (hid : d.id = parameterizedId base.id d.args) : Spelled V d

/-! ## Identifiers are sealed -/

theorem executableId_toList (owner name : String) (params : List FieldType) :
    (executableId owner name params).toList = owner.toList ++ '#' :: (name.toList ++
      '(' :: ([','].intercalate (params.map fun t => t.display.toList) ++ [')'])) := by
  simp [executableId, String.toList_intercalate, Function.comp_def]

theorem parameterizedId_toList (base : String) (args : List (TypeArgument Declaration)) :
    (parameterizedId base args).toList = base.toList ++
      '<' :: ([','].intercalate (args.map fun a => a.fragment.toList) ++ ['>']) := by
  simp [parameterizedId, String.toList_intercalate, Function.comp_def]

variable {V : Vocabulary} {d e : Declaration}

namespace Spelled

/-- The last mark in the identifier of a declaration. -/
def markOf : DeclarationKind → Option Char
  | .package | .type => none
  | .field => some '#'
  | .method | .constructor => some ')'
  | .typeVariable => some '!'
  | .localVariable => some ':'
  | .array => some ']'
  | .parameterized => some '>'

theorem lastMark_eq (hV : V.Clear) (hd : Spelled V d) :
    Name.lastMark d.id.toList = markOf d.kind := by
  have hclosing (cs : List Char) {m : Char} (hm : m ∈ Name.marks) :
      Name.lastMark (cs ++ [m]) = some m :=
    Name.lastMark_append cs hm (show Plain "" by simp [Plain])
  have hexecutable {owner name : String} {params : List FieldType} :
      Name.lastMark (executableId owner name params).toList = some ')' := by
    have := hclosing (owner.toList ++ '#' :: (name.toList ++
      '(' :: [','].intercalate (params.map fun t => t.display.toList))) (m := ')') (by decide)
    simpa [executableId_toList] using this
  cases hd with
  | package hkind hid => rw [(hV.package_plain _ hid).lastMark_eq, hkind, markOf]
  | type hkind hid => rw [(hV.type_plain _ hid).lastMark_eq, hkind, markOf]
  | @field _ owner name hkind howner hname hid =>
    have := Name.lastMark_append owner.toList (m := '#') (by decide) (hV.word_plain _ hname)
    rw [hkind, markOf, hid]
    simpa using this
  | method hkind howner hname hparams hid => rw [hkind, markOf, hid, hexecutable]
  | constructor hkind howner hparams hid => rw [hkind, markOf, hid, hexecutable]
  | @typeVariable _ owner name hkind howner hname hid =>
    have := Name.lastMark_append owner.id.toList (m := '!') (by decide) (hV.word_plain _ hname)
    rw [hkind, markOf, hid]
    simpa using this
  | @localVariable _ owner name slot hkind howner hname hid =>
    have := Name.lastMark_append (owner.id.toList ++ '@' :: name.toList) (m := ':') (by decide)
      (Name.plain_toString slot)
    rw [hkind, markOf, hid]
    simpa using this
  | @array _ component hkind howner hcomponent hid =>
    have := hclosing (component.id.toList ++ ['[']) (m := ']') (by decide)
    rw [hkind, markOf, hid]
    simpa using this
  | @parameterized _ base hkind howner hbase hne hargs hid =>
    have := hclosing (base.id.toList ++ '<' ::
      [','].intercalate (d.args.map fun a => a.fragment.toList)) (m := '>') (by decide)
    rw [hkind, markOf, hid, parameterizedId_toList]
    simpa using this

/-- The name of a constructor is no plain one. -/
theorem method_id_ne {owner owner' name : String} {params params' : List FieldType}
    (howner : Plain owner) (howner' : Plain owner') (hname : Plain name) :
    executableId owner name params ≠ executableId owner' "<init>" params' := by
  intro heq
  have hlist := congrArg String.toList heq
  rw [executableId_toList, executableId_toList] at hlist
  obtain ⟨-, hrest⟩ := howner.cancel howner' (by decide) hlist
  have hinit : "<init>".toList = ['<', 'i', 'n', 'i', 't', '>'] := by simp
  rw [hinit] at hrest
  cases hchars : name.toList with
  | nil => simp [hchars] at hrest
  | cons c cs =>
    obtain ⟨rfl, -⟩ : c = '<' ∧ _ := by simpa [hchars] using hrest
    exact hname '<' (by simp [hchars]) (by decide)

/-- The identifier tells the kind. -/
theorem kind_eq (hV : V.Clear) (hd : Spelled V d) (he : Spelled V e) (h : d.id = e.id) :
    d.kind = e.kind := by
  have hmark : markOf d.kind = markOf e.kind := by
    rw [← hd.lastMark_eq hV, ← he.lastMark_eq hV, h]
  cases hd with
  | package hkind hid =>
    cases he with
    | type hkind' hid' => exact absurd (h ▸ hid) (hV.apart _ hid')
    | _ => simp_all [markOf]
  | type hkind hid =>
    cases he with
    | package hkind' hid' => exact absurd hid' (hV.apart _ (h ▸ hid))
    | _ => simp_all [markOf]
  | method hkind howner hname hparams hid =>
    cases he with
    | constructor hkind' howner' hparams' hid' =>
      exact absurd (hid.symm.trans (h.trans hid')) (method_id_ne (hV.type_plain _ howner)
        (hV.type_plain _ howner') (hV.word_plain _ hname))
    | _ => simp_all [markOf]
  | constructor hkind howner hparams hid =>
    cases he with
    | method hkind' howner' hname' hparams' hid' =>
      exact absurd (hid'.symm.trans (h.symm.trans hid)) (method_id_ne (hV.type_plain _ howner')
        (hV.type_plain _ howner) (hV.word_plain _ hname'))
    | _ => simp_all [markOf]
  | _ => cases he <;> simp_all [markOf]

end Spelled

/-! ## Components -/

namespace Declaration

/-- The identifiers of the types that a declaration is made from. -/
def componentIds (d : Declaration) : List String := d.componentTypes.map id

end Declaration

namespace Spelled

end Spelled

end Rebuild
