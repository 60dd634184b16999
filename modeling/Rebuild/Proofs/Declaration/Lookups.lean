import Mathlib
import Rebuild.Proofs.Declaration.Answers

/-! Lookups as functions of the artifacts. Main statement: whatever a table has cached and bound,
what it answers for a type, a descriptor or a signature has the identifier that can be sketched
from the artifacts alone. -/
namespace Rebuild

open Artifact (ClassFile Member)
open Setting

variable {φ : Type}

/-- Looking for an artifact does not change what is found later. -/
def Finder.Steady (source : Finder φ) : Prop :=
  ∀ s a b, (source.find b (source.find a s).2).1 = (source.find b s).1

theorem Finder.Steady.classFile?_find {source : Finder φ} (h : source.Steady)
    (binary internal : String) (s : φ) :
    source.classFile? binary (source.find internal s).2 = source.classFile? binary s := by
  rw [classFile?, h, classFile?]

theorem ArtifactStore.finder_steady : finder.Steady := fun _ _ _ => rfl

/-- A binary name that is spelled with dots throughout. -/
def Name.Dotted (binary : String) : Prop := '/' ∉ binary.toList

theorem Name.dotted_toBinary (internal : String) : Dotted (toBinary internal) := by
  simp only [Dotted, toBinary, String.toList_ofList, List.mem_map, not_exists, not_and]
  intro c _ h
  split at h
  · cases h
  next hc => exact hc h

/-- Dotted names are got back from their internal spellings. -/
theorem Name.toBinary_toInternal {binary : String} (h : Dotted binary) :
    toBinary (toInternal binary) = binary := by
  refine String.ext ?_
  simp only [toBinary, toInternal, String.toList_ofList, List.map_map]
  refine (List.map_congr_left fun c hc => ?_).trans (List.map_id _)
  have hne : c ≠ '/' := fun heq => h (heq ▸ hc)
  by_cases hdot : c = '.' <;> simp [hdot, hne]

/-! ## Views -/

namespace Table

/-- The artifact that a table knows, or finds. -/
def view (source : Finder φ) (t : Table φ) (binary : String) : Option ClassFile :=
  ((classFile source binary).run t).1

theorem view_eq (source : Finder φ) (t : Table φ) (binary : String) :
    t.view source binary = (t.classes.get? binary).getD (source.classFile? binary t.finder) := by
  rw [view, run_classFile]
  cases t.classes.get? binary <;> rfl

end Table

variable {S : Setting φ} {t t' : Table φ}

theorem Setting.Step.view_eq (hsteady : S.source.Steady) (h : S.Step t t') (binary : String) :
    t'.view S.source binary = t.view S.source binary := by
  cases h with
  | bind hfree hserial hspelled => rw [Table.view_eq, Table.view_eq]
  | attach hc ha hid => rw [Table.view_eq, Table.view_eq]
  | load loaded =>
    rw [Table.run_classFile]
    cases hloaded : t.classes.get? loaded with
    | some known => rfl
    | none =>
      by_cases heq : loaded = binary
      · subst heq
        simp [Table.view_eq, hloaded]
      · simp [Table.view_eq, heq, hsteady.classFile?_find]

theorem Setting.Steps.view_eq (hsteady : S.source.Steady) (h : S.Steps t t') (binary : String) :
    t'.view S.source binary = t.view S.source binary := by
  induction h with
  | refl => rfl
  | tail _ hstep ih => rw [hstep.view_eq hsteady, ih]

/-- What a table knows or finds of types with dotted names. -/
def Setting.Views (S : Setting φ) (t : Table φ) (view : String → Option ClassFile) : Prop :=
  ∀ binary, Name.Dotted binary → t.view S.source binary = view binary

theorem Setting.Views.steps {view : String → Option ClassFile} (h : S.Views t view)
    (hsteady : S.source.Steady) (hsteps : S.Steps t t') : S.Views t' view :=
  fun binary hbinary => (hsteps.view_eq hsteady binary).trans (h binary hbinary)

/-- Two properties of the answer of one lookup. -/
theorem Setting.Yields.and {α : Type} {m : TableM φ α} {Q R : α → Table φ → Prop}
    (hq : S.Yields t m Q) (hr : S.Yields t m R) : S.Yields t m fun a t' => Q a t' ∧ R a t' :=
  fun ht => ⟨(hq ht).1, (hq ht).2, (hr ht).2⟩

/-! ## Sketches -/

namespace Sketch

/-- A declaration of a type, as far as identifiers show it. -/
def type (binary : String) : Declaration :=
  { serial := 0, id := binary, kind := .type, name := Name.simple binary, owner := none }

def typeVariable (owner : Declaration) (name : String) : Declaration :=
  { serial := 0, id := owner.id ++ "!" ++ name, kind := .typeVariable, name, owner := some owner }

def array (component : Declaration) : Declaration :=
  { serial := 0, id := component.id ++ "[]", kind := .array, name := component.name ++ "[]"
    owner := some component }

def parameterized (base : Declaration) (args : List (TypeArgument Declaration)) : Declaration :=
  if args = [] then base
  else { serial := 0, id := parameterizedId base.id args, kind := .parameterized, name := base.name
         owner := some base, args }

end Sketch

/-- An argument with what its type stands for; `?` if that is nothing. -/
def TypeArgument.resolve {α β : Type} :
    (a : TypeArgument α) → (∀ type, a.type? = some type → Option β) → TypeArgument β
  | any, _ => any
  | exact type, f => ((f type rfl).map exact).getD any
  | upper bound, f => ((f bound rfl).map upper).getD any
  | lower bound, f => ((f bound rfl).map lower).getD any

/-- The declaration of an erased type, as far as identifiers show it. -/
def FieldType.sketch (view : String → Option ClassFile) : FieldType → Option Declaration
  | base _ => none
  | object internal =>
    (view (Name.toBinary internal)).map fun _ => Sketch.type (Name.toBinary internal)
  | array component => (component.sketch view).map Sketch.array

/-- The declaration of a generic type, as far as identifiers show it, where type variables have
given owners. -/
def ReferenceType.sketch (view : String → Option ClassFile) (owner : String → Option Declaration) :
    ReferenceType → Option Declaration
  | typeVariable name => (owner name).map fun d => Sketch.typeVariable d name
  | array (.base _) => none
  | array (.reference component) => (component.sketch view owner).map Sketch.array
  | ofClass c => (view (Name.toBinary c.internalName)).map fun _ =>
    Sketch.parameterized (Sketch.type (Name.toBinary c.internalName))
      (c.args.attach.map fun a => a.1.resolve fun type _ => type.sketch view owner)
termination_by type => sizeOf type
decreasing_by
  · simp only [array.sizeOf_spec, ValueType.reference.sizeOf_spec]
    omega
  · rename_i htype
    exact sizeOf_lt_ofClass a.2 htype

theorem ReferenceType.sketch_ofClass (view : String → Option ClassFile)
    (owner : String → Option Declaration) (c : ClassType ReferenceType) :
    (ofClass c).sketch view owner = (view (Name.toBinary c.internalName)).map fun _ =>
      Sketch.parameterized (Sketch.type (Name.toBinary c.internalName))
        (c.args.map fun a => a.resolve fun type _ => type.sketch view owner) := by
  rw [sketch, List.attach_map_val (f := fun a : TypeArgument ReferenceType =>
    a.resolve fun type _ => type.sketch view owner)]

/-! ## Answers -/

namespace Table

variable {view : String → Option ClassFile}

/-- A type is found if its artifact is, and has the identifier that was asked for. -/
theorem type_view (binary : String) : S.Yields t (type S.source binary) fun r _ =>
    r.map Declaration.id = (t.view S.source binary).map fun _ => binary := by
  intro ht
  refine ⟨(type_yields binary ht).1, ?_⟩
  change ((type S.source binary).run t).1.map _ = _
  rw [Table.view]
  obtain ⟨htype, hfile⟩ | ⟨d, c, htype, hfile, -, hid⟩ := type_cases ht binary
  · rw [htype, hfile, Option.map_none, Option.map_none]
  · rw [htype, hfile, Option.map_some, Option.map_some, hid]

theorem type_sketch (hview : S.Views t view) {binary : String} (hbinary : Name.Dotted binary) :
    S.Yields t (type S.source binary) fun r _ =>
      r.map Declaration.id = (view binary).map fun _ => binary :=
  hview binary hbinary ▸ type_view binary

/-- The array of an answer that has the identifier of a sketch. -/
theorem array_sketch {r : Option Declaration} {kind : DeclarationKind} {sketch : Option Declaration}
    (hr : S.Finds kind r t) (hid : r.map Declaration.id = sketch.map Declaration.id) :
    S.Yields t (match r with
      | some d => some <$> array d
      | none => return none) fun r _ =>
        r.map Declaration.id = (sketch.map Sketch.array).map Declaration.id := by
  cases r with
  | none =>
    refine .pure fun _ => ?_
    cases sketch with
    | none => rfl
    | some e => cases hid
  | some d =>
    cases sketch with
    | none => cases hid
    | some e =>
      obtain hid : d.id = e.id := by simpa using hid
      refine .map ((array_yields hr.known).mono fun a t' _ _ ha => ?_)
      simp [ha.2, hid, Sketch.array]

theorem fieldType_sketch (hview : S.Views t view) (type : FieldType) :
    S.Yields t (fieldType S.source type) fun r _ =>
      r.map Declaration.id = (type.sketch view).map Declaration.id := by
  induction type generalizing t with
  | base type => exact .pure fun _ => rfl
  | object internal =>
    refine (type_sketch hview (Name.dotted_toBinary internal)).mono fun r _ _ _ hr => ?_
    rw [hr, FieldType.sketch, Option.map_map]
    rfl
  | array component ih =>
    refine .bind ((fieldType_yields component).and (ih hview)) fun r t' hsteps hr => ?_
    exact array_sketch hr.1 hr.2

/-- The texts of arguments are those of their sketches, if that holds of what they hold. -/
theorem argument_sketch {scope : TypeScope} {a : TypeArgument ReferenceType}
    {sketch : ReferenceType → Option Declaration}
    (ha : ∀ type, a.type? = some type → S.Yields t (referenceType S.source scope type) fun r _ =>
      r.map Declaration.id = (sketch type).map Declaration.id) :
    S.Yields t (argument S.source scope a) fun x _ =>
      x.fragment = (a.resolve fun type _ => sketch type).fragment := by
  have hfragment {r e : Option Declaration} (h : r.map Declaration.id = e.map Declaration.id)
      (how : Declaration → TypeArgument Declaration)
      (hhow : ∀ d e : Declaration, d.id = e.id → (how d).fragment = (how e).fragment) :
      ((r.map how).getD .any).fragment = ((e.map how).getD .any).fragment := by
    cases r with
    | none => cases e <;> simp_all
    | some d =>
      cases e with
      | none => simp at h
      | some e => exact hhow d e (by simpa using h)
  cases a with
  | any => exact .pure fun _ => rfl
  | exact type =>
    rw [argument]
    exact .bind (ha type rfl) fun r _ _ hr => .pure fun _ => hfragment hr .exact fun d e h => h
  | upper bound =>
    rw [argument]
    exact .bind (ha bound rfl) fun r _ _ hr => .pure fun _ =>
      hfragment hr .upper fun d e h => by rw [TypeArgument.fragment, h, TypeArgument.fragment]
  | lower bound =>
    rw [argument]
    exact .bind (ha bound rfl) fun r _ _ hr => .pure fun _ =>
      hfragment hr .lower fun d e h => by rw [TypeArgument.fragment, h, TypeArgument.fragment]

theorem arguments_sketch (hsteady : S.source.Steady) (hview : S.Views t view) {scope : TypeScope}
    (hscope : S.InScope t scope) {args : List (TypeArgument ReferenceType)}
    {sketch : ReferenceType → Option Declaration}
    (hargs : ∀ a ∈ args, ∀ type, a.type? = some type → ∀ t, S.Views t view → S.InScope t scope →
      S.Yields t (referenceType S.source scope type) fun r _ =>
        r.map Declaration.id = (sketch type).map Declaration.id) :
    S.Yields t (arguments S.source scope args) fun l _ => l.map TypeArgument.fragment =
      args.map fun a => (a.resolve fun type _ => sketch type).fragment := by
  induction args generalizing t with
  | nil => exact .pure fun _ => rfl
  | cons a rest ih =>
    rw [arguments]
    refine .bind (argument_sketch fun type htype => hargs a (by simp) type htype t hview hscope)
      fun first t₁ hsteps₁ hfirst => ?_
    refine .bind (ih (hview.steps hsteady hsteps₁) (hscope.steps hsteps₁)
      fun b hb => hargs b (by simp [hb])) fun others _ _ hothers => .pure fun _ => ?_
    simp [hfirst, hothers]

theorem referenceType_sketch (hsteady : S.source.Steady) (hview : S.Views t view)
    {scope : TypeScope} (hscope : S.InScope t scope) {owner : String → Option Declaration}
    (hlike : ∀ name, (scope.owner? name).map Declaration.id = (owner name).map Declaration.id)
    {type : ReferenceType} (hnames : type.Within S.names.word) :
    S.Yields t (referenceType S.source scope type) fun r _ =>
      r.map Declaration.id = (type.sketch view owner).map Declaration.id := by
  induction type using ReferenceType.induction generalizing t with
  | variableCase name =>
    rw [referenceType, ReferenceType.sketch]
    have hname := hlike name
    cases howner : scope.owner? name with
    | none =>
      rw [howner] at hname
      refine .pure fun _ => ?_
      cases hother : owner name with
      | none => rfl
      | some e => simp [hother] at hname
    | some d =>
      rw [howner] at hname
      obtain ⟨e, he, hid⟩ : ∃ e, owner name = some e ∧ e.id = d.id := by
        simpa [eq_comm] using hname
      refine .map ((typeVariable_yields (hscope.owner? howner) (hnames name .self)).mono
        fun x t' _ _ hx => ?_)
      rw [he, Option.map_some, Option.map_some, Option.map_some, hx.2, Sketch.typeVariable, hid]
  | baseCase type =>
    refine .pure fun _ => ?_
    rw [ReferenceType.sketch]
  | arrayCase component ih =>
    rw [referenceType, valueType, ReferenceType.sketch]
    exact .bind ((referenceType_yields hscope hnames.component).and
      (ih hview hscope hnames.component)) fun r t' _ hr => array_sketch hr.1 hr.2
  | classCase c ih =>
    rw [referenceType, classType_eq, ReferenceType.sketch_ofClass]
    refine .bind ((type_yields _).and (type_sketch hview (Name.dotted_toBinary c.internalName)))
      fun base t₁ hsteps₁ hbase => ?_
    cases base with
    | none =>
      have hnone : view (Name.toBinary c.internalName) = none := by simpa using hbase.2.symm
      exact .pure fun _ => by simp [hnone]
    | some base =>
      obtain ⟨f, hf⟩ : ∃ f, view (Name.toBinary c.internalName) = some f := by
        cases hfile : view (Name.toBinary c.internalName) <;> simp_all
      rw [hf, Option.map_some]
      have hview₁ : S.Views t₁ view := hview.steps hsteady hsteps₁
      refine .bind ((arguments_yields (hscope.steps hsteps₁) fun a ha type htype t ht =>
        referenceType_yields ht (hnames.argument ha htype)).and
        (arguments_sketch hsteady hview₁ (hscope.steps hsteps₁) fun a ha type htype t hview ht =>
          ih a ha type htype hview ht (hnames.argument ha htype))) fun l t₂ hsteps₂ hl => .map ?_
      obtain ⟨⟨hl, hempty⟩, hfragments⟩ := hl
      have hid : base.id = Name.toBinary c.internalName := hbase.1.2.1
      by_cases hnil : l = []
      · subst hnil
        refine .pure fun _ => ?_
        rw [hempty.mp rfl]
        simpa [Sketch.parameterized, Sketch.type] using hid
      · refine (parameterized_yields (hbase.1.1.known.steps hsteps₂) hl hnil).mono
          fun d _ _ _ hd => ?_
        have hne : c.args ≠ [] := fun h => hnil (hempty.mpr h)
        simp [hd.2, parameterizedId, Sketch.parameterized, Sketch.type, hne, hfragments, hid,
          Function.comp_def]

end Table

/-! ## What sketches are made from -/

variable {V : Vocabulary} {view : String → Option ClassFile}

namespace FieldType

end FieldType

namespace ReferenceType

variable {owner : String → Option Declaration}

end ReferenceType

end Rebuild
