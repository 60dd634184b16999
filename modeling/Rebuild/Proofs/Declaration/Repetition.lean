import Mathlib
import Rebuild.Proofs.Declaration.Eviction
import Rebuild.Proofs.Declaration.Inheritance

/-! Lookups that are made again. Main statement: as long as the artifacts stay the same, a table
answers a lookup for the second time, whatever it was asked in between, with the very declaration
that it answered for the first time. -/
namespace Rebuild

open Artifact (ClassFile Member)

variable {φ α β : Type} {source : Finder φ}

namespace Table

/-- A later table that still has what the earlier one had: the declarations bound to identifiers,
the arrays, and the artifacts known or found. What was up to date still is. -/
structure Extends (source : Finder φ) (t t' : Table φ) : Prop where
  bound : ∀ {id d}, t.get? id = some d → t'.get? id = some d
  array : ∀ {serial d}, t.arrays.get? serial = some d → t'.arrays.get? serial = some d
  view : ∀ binary, t'.view source binary = t.view source binary
  current : ∀ {binary}, t.Current source binary → t'.Current source binary

namespace Extends

variable {t t' t'' : Table φ}

theorem refl (t : Table φ) : Extends source t t := ⟨id, id, fun _ => rfl, id⟩

theorem trans (h : Extends source t t') (h' : Extends source t' t'') : Extends source t t'' :=
  ⟨fun hd => h'.bound (h.bound hd), fun hd => h'.array (h.array hd),
    fun binary => (h'.view binary).trans (h.view binary), fun hb => h'.current (h.current hb)⟩

end Extends

/-- A lookup keeps what the table has. -/
def Keeps (source : Finder φ) (m : TableM φ α) : Prop := ∀ t, Extends source t (m.run t).2

namespace Keeps

variable {m : TableM φ α} {f : α → TableM φ β}

theorem pure (a : α) : Keeps source (pure a : TableM φ α) := fun t => .refl t

theorem bind (hm : Keeps source m) (hf : ∀ a, Keeps source (f a)) : Keeps source (m >>= f) := by
  intro t
  rw [run_bind]
  exact (hm t).trans (hf _ _)

theorem map {g : α → β} (hm : Keeps source m) : Keeps source (g <$> m) := hm

theorem get_bind {f : Table φ → TableM φ β} (hf : ∀ t, Keeps source (f t)) :
    Keeps source (get >>= f) := fun t => hf t t

end Keeps

/-- A lookup that keeps what the table has and is answered alike from then on. -/
structure Lasting (source : Finder φ) (m : TableM φ α) : Prop where
  keeps : Keeps source m
  again : ∀ {t t'}, Extends source (m.run t).2 t' → (m.run t').1 = (m.run t).1

namespace Lasting

variable {m : TableM φ α} {f : α → TableM φ β}

theorem pure (a : α) : Lasting source (pure a : TableM φ α) := ⟨.pure a, fun _ => rfl⟩

theorem bind (hm : Lasting source m) (hf : ∀ a, Lasting source (f a)) :
    Lasting source (m >>= f) := by
  refine ⟨.bind hm.keeps fun a => (hf a).keeps, fun {t t'} h => ?_⟩
  rw [run_bind] at h ⊢
  have hfirst : (m.run t').1 = (m.run t).1 := hm.again (((hf _).keeps _).trans h)
  rw [run_bind, hfirst]
  exact (hf _).again (h.trans (hm.keeps t'))

theorem map {g : α → β} (hm : Lasting source m) : Lasting source (g <$> m) :=
  ⟨.map hm.keeps, fun h => congrArg g (hm.again h)⟩

end Lasting

/-! ## Types and packages -/

theorem get?_intern (id : String) (make : Nat → Declaration) (t : Table φ) :
    ((intern id make).run t).2.get? id = some ((intern id make).run t).1 := by
  rw [run_intern]
  cases hd : t.get? id with
  | some d => exact hd
  | none => simp [get?]

theorem intern_lasting (id : String) (make : Nat → Declaration) :
    Lasting source (intern id make : TableM φ Declaration) := by
  refine ⟨fun t => ?_, fun {t t'} h => ?_⟩
  · rw [run_intern]
    cases hfree : t.get? id with
    | some d => exact .refl t
    | none =>
      refine ⟨fun {id' d} hd => ?_, fun ha => ha, fun binary => ?_, fun hb => hb⟩
      · have hne : id ≠ id' := by
          rintro rfl
          rw [hfree] at hd
          cases hd
        simpa [get?, hne] using hd
      · rw [view_eq, view_eq]
  · rw [run_intern, h.bound (get?_intern id make t)]

theorem classFile_lasting (hsteady : source.Steady) (binary : String) :
    Lasting source (classFile source binary) := by
  have hkeeps : Keeps source (classFile source binary) := by
    intro t
    have hload : (Setting.any source).Step t ((classFile source binary).run t).2 := .load binary
    refine ⟨fun hd => hload.get?_of_get? hd, fun ha => ?_, hload.view_eq hsteady,
      hload.current hsteady⟩
    rw [run_classFile]
    split <;> exact ha
  exact ⟨hkeeps, fun {t t'} h => (h.view binary).trans ((hkeeps t).view binary)⟩

theorem packagesIn_lasting (owner : Declaration) (prefixes : List (String × String)) :
    Lasting source (packagesIn owner prefixes : TableM φ Declaration) := by
  induction prefixes generalizing owner with
  | nil => exact .pure owner
  | cons p rest ih => exact .bind (intern_lasting _ _) ih

theorem package_lasting (qualified : String) :
    Lasting source (package qualified : TableM φ Declaration) := by
  refine .bind (intern_lasting _ _) fun unnamed => ?_
  split
  · exact .pure unnamed
  · exact packagesIn_lasting _ _

/-- The search for a type that is not bound. -/
def unboundType (source : Finder φ) (binary : String) (around : List String) :
    TableM φ (Option Declaration) := do
  match ← classFile source binary with
  | none => return none
  | some c =>
    let owner ← match ← typeWithin source around with
      | some d => pure d
      | none => package (Name.packageOf binary)
    some <$> intern binary fun serial => {
      serial, id := binary, kind := .type, name := Name.simple binary
      owner := some owner, modifiers := c.declaredAccess }

section Types

variable {t : Table φ} {binary : String} {around : List String} {d : Declaration}

theorem run_typeWithin_of_bound (h : (t.get? binary).filter Declaration.isType = some d) :
    (typeWithin source (binary :: around)).run t =
      ((fun c => c.map fun _ => d) <$> classFile source binary).run t := by
  rw [typeWithin, run_bind]
  change StateT.run (match (t.get? binary).filter Declaration.isType with
    | some d => _
    | none => _) t = _
  rw [h]
  rfl

theorem run_typeWithin_of_unbound (h : (t.get? binary).filter Declaration.isType = none) :
    (typeWithin source (binary :: around)).run t =
      (unboundType source binary around).run t := by
  rw [typeWithin, run_bind]
  change StateT.run (match (t.get? binary).filter Declaration.isType with
    | some d => _
    | none => _) t = _
  rw [h]
  rfl

theorem unboundType_lasting (hsteady : source.Steady)
    (haround : Lasting source (typeWithin source around)) :
    Lasting source (unboundType source binary around) := by
  refine .bind (classFile_lasting hsteady binary) fun c => ?_
  cases c with
  | none => exact .pure none
  | some c =>
    refine .bind haround fun r => ?_
    cases r with
    | some d => exact .bind (.pure d) fun owner => .map (intern_lasting _ _)
    | none => exact .bind (package_lasting _) fun owner => .map (intern_lasting _ _)

/-- A type that is found is bound then. -/
theorem unboundType_cases (source : Finder φ) (binary : String) (around : List String)
    (t : Table φ) :
    (((unboundType source binary around).run t).1 = none ∧ t.view source binary = none) ∨
      ∃ d c, ((unboundType source binary around).run t).1 = some d ∧
        ((unboundType source binary around).run t).2.get? binary = some d ∧
        t.view source binary = some c := by
  have hintern (make : Nat → Declaration) (t' : Table φ) : ∃ d,
      ((some <$> intern binary make).run t').1 = some d ∧
        ((some <$> intern binary make).run t').2.get? binary = some d :=
    ⟨_, rfl, get?_intern binary make t'⟩
  unfold unboundType
  rw [run_bind, view]
  cases ((classFile source binary).run t).1 with
  | none => exact .inl ⟨rfl, rfl⟩
  | some c =>
    simp only [run_bind]
    split <;> rw [run_bind]
    · obtain ⟨d, hd, hbound⟩ := hintern _ _
      exact .inr ⟨d, c, hd, hbound, rfl⟩
    · obtain ⟨d, hd, hbound⟩ := hintern _ _
      exact .inr ⟨d, c, hd, hbound, rfl⟩

end Types

/-- A type that was found is bound, so that later on it is found without the types around it. -/
theorem typeWithin_lasting (hsteady : source.Steady) (names : List String) :
    Lasting source (typeWithin source names) := by
  induction names with
  | nil => exact .pure none
  | cons binary around ih =>
    have hsearch : Lasting source (unboundType source binary around) :=
      unboundType_lasting hsteady ih
    have hknown (d : Declaration) : Lasting source ((fun c : Option ClassFile =>
        c.map fun _ => d) <$> classFile source binary) := .map (classFile_lasting hsteady binary)
    refine ⟨fun t => ?_, fun {t t'} h => ?_⟩
    · cases hd : (t.get? binary).filter Declaration.isType with
      | some d =>
        rw [run_typeWithin_of_bound hd]
        exact (hknown d).keeps t
      | none =>
        rw [run_typeWithin_of_unbound hd]
        exact hsearch.keeps t
    · cases hd : (t.get? binary).filter Declaration.isType with
      | some d =>
        rw [run_typeWithin_of_bound hd] at h ⊢
        have hd' : (t'.get? binary).filter Declaration.isType = some d := by
          obtain ⟨hbound, htype⟩ := Option.filter_eq_some_iff.mp hd
          exact Option.filter_eq_some_iff.mpr
            ⟨h.bound (((hknown d).keeps t).bound hbound), htype⟩
        rw [run_typeWithin_of_bound hd']
        exact (hknown d).again h
      | none =>
        rw [run_typeWithin_of_unbound hd] at h ⊢
        cases hd' : (t'.get? binary).filter Declaration.isType with
        | none =>
          rw [run_typeWithin_of_unbound hd']
          exact hsearch.again h
        | some d' =>
          -- It was bound by this search, or it has no artifact.
          rw [run_typeWithin_of_bound hd']
          have hview : t'.view source binary = t.view source binary :=
            (h.view binary).trans ((hsearch.keeps t).view binary)
          change (t'.view source binary).map (fun _ => d') = _
          rw [hview]
          obtain ⟨hnone, hfile⟩ | ⟨d, c, hsome, hbound, hfile⟩ :=
            unboundType_cases source binary around t
          · rw [hnone, hfile, Option.map_none]
          · obtain ⟨hbound', -⟩ := Option.filter_eq_some_iff.mp hd'
            obtain rfl : d = d' := Option.some.inj ((h.bound hbound).symm.trans hbound')
            rw [hsome, hfile, Option.map_some]

theorem type_lasting (hsteady : source.Steady) (binary : String) :
    Lasting source (type source binary) :=
  typeWithin_lasting hsteady _

theorem internalType_lasting (hsteady : source.Steady) (internal : String) :
    Lasting source (internalType source internal) :=
  type_lasting hsteady _

/-! ## Members -/

/-- Where all that is in the queue was met, nothing is found. -/
theorem searchMember_seen {queue seen : List String} (h : queue.dropWhile (· ∈ seen) = [])
    (inherited : Bool) (select : ClassFile → Option Member) (n : Nat) :
    searchMember source inherited select n queue seen = pure none := by
  cases n with
  | zero => rfl
  | succ n => simp only [searchMember, h]

/-- Within bounds that are enough, a search is the same. -/
theorem searchMember_eq (hsteady : source.Steady) (inherited : Bool)
    (select : ClassFile → Option Member) {t : Table φ} {n m : Nat} {queue seen : List String}
    (hn : Covers (t.view source) n queue seen) (hm : Covers (t.view source) m queue seen) :
    (searchMember source inherited select n queue seen).run t =
      (searchMember source inherited select m queue seen).run t := by
  induction n generalizing t m queue seen with
  | zero => rw [searchMember_seen hn.dropWhile_eq_nil, searchMember_seen hn.dropWhile_eq_nil]
  | succ n ih =>
    cases m with
    | zero => rw [searchMember_seen hm.dropWhile_eq_nil, searchMember_seen hm.dropWhile_eq_nil]
    | succ m =>
      rw [searchMember, searchMember]
      cases hqueue : queue.dropWhile (· ∈ seen) with
      | nil => rfl
      | cons binary rest =>
        have hn' := hn.step hqueue
        have hm' := hm.step hqueue
        simp only [run_bind]
        have hview : ((classFile source binary).run t).2.view source = t.view source :=
          funext ((classFile_lasting hsteady binary).keeps t).view
        cases hfile : ((classFile source binary).run t).1 with
        | none =>
          have hnone : supertypesIn (t.view source) binary = [] := by
            simp [supertypesIn, view, hfile]
          rw [hnone, List.append_nil, ← hview] at hn' hm'
          exact ih hn' hm'
        | some c =>
          have hsome : supertypesIn (t.view source) binary = c.supertypes.map Name.toBinary := by
            simp [supertypesIn, view, hfile]
          rw [hsome, ← hview] at hn' hm'
          cases hselect : select c with
          | some found => simp only [hselect]
          | none =>
            simp only [hselect]
            split
            · exact ih hn' hm'
            · rfl

theorem searchMember_lasting (hsteady : source.Steady) (inherited : Bool)
    (select : ClassFile → Option Member) (n : Nat) (queue seen : List String) :
    Lasting source (searchMember source inherited select n queue seen) := by
  induction n generalizing queue seen with
  | zero => exact .pure none
  | succ n ih =>
    rw [searchMember]
    split
    · exact .pure none
    next binary rest _ =>
      refine .bind (classFile_lasting hsteady binary) fun c => ?_
      cases c with
      | none => exact ih _ _
      | some c =>
        cases hselect : select c with
        | some m =>
          simp only [hselect]
          exact .bind (type_lasting hsteady binary) fun d => .pure _
        | none =>
          simp only [hselect]
          split
          · exact ih _ _
          · exact .pure none

/-- The bounds differ with what is loaded, but each is enough. -/
theorem run_findMember (hregular : source.Regular) {t : Table φ} {start : Declaration}
    (inherited : Bool) (select : ClassFile → Option Member) {n : Nat}
    (hn : Covers (t.view source) n [start.id] []) :
    (findMember source start inherited select).run t =
      (searchMember source inherited select n [start.id] []).run t :=
  searchMember_eq hregular.steady inherited select
    (covers_searchBound hregular.counted t start.id) hn

theorem findMember_lasting (hregular : source.Regular) (start : Declaration) (inherited : Bool)
    (select : ClassFile → Option Member) :
    Lasting source (findMember source start inherited select) := by
  have hsearch (n : Nat) := searchMember_lasting hregular.steady inherited select n [start.id] []
  refine ⟨.get_bind fun t => (hsearch _).keeps, fun {t t'} h => ?_⟩
  have hcovers := covers_searchBound hregular.counted t start.id
  rw [run_findMember hregular inherited select hcovers] at h ⊢
  have hview : t'.view source = t.view source :=
    funext fun b => (h.view b).trans (((hsearch _).keeps t).view b)
  rw [run_findMember hregular inherited select (hview ▸ hcovers)]
  exact (hsearch _).again h

theorem field_lasting (hregular : source.Regular) (owner : Declaration) (name : String) :
    Lasting source (field source owner name) := by
  refine .bind (findMember_lasting hregular owner true _) fun r => ?_
  cases r with
  | none => exact .pure none
  | some r => exact .map (intern_lasting _ _)

theorem executable_lasting (hregular : source.Regular) (owner : Declaration) (name : String)
    (params : List FieldType) (kind : DeclarationKind) :
    Lasting source (executable source owner name params kind) := by
  refine .bind (findMember_lasting hregular owner (kind == .method) _) fun r => ?_
  cases r with
  | none => exact .pure none
  | some r => exact .map (intern_lasting _ _)

theorem method_lasting (hregular : source.Regular) (owner : Declaration) (name : String)
    (params : List FieldType) : Lasting source (method source owner name params) :=
  executable_lasting hregular owner name params .method

theorem constructor_lasting (hregular : source.Regular) (owner : Declaration)
    (params : List FieldType) : Lasting source (constructor source owner params) :=
  executable_lasting hregular owner "<init>" params .constructor

/-! ## Types made from others -/

/-- The declaration of an array that its component does not remember. -/
def arrayDeclaration (component : Declaration) : TableM φ Declaration :=
  intern (component.id ++ "[]") fun serial => {
    serial, id := component.id ++ "[]", kind := .array, name := component.name ++ "[]"
    owner := some component }

theorem run_array (component : Declaration) (t : Table φ) :
    (array component).run t = match t.arrayOf? component with
      | some d => (d, t)
      | none =>
        let r := (arrayDeclaration component).run t
        (r.1, { r.2 with arrays := r.2.arrays.put component.serial r.1 }) := by
  rw [array, run_bind]
  change StateT.run (match t.arrayOf? component with
    | some d => _
    | none => _) t = _
  cases t.arrayOf? component <;> rfl

theorem array_lasting (component : Declaration) :
    Lasting source (array component : TableM φ Declaration) := by
  refine ⟨fun t => ?_, fun {t t'} h => ?_⟩
  · rw [run_array]
    cases harray : t.arrayOf? component with
    | some d => exact .refl t
    | none =>
      have hmade : Extends source t ((arrayDeclaration component).run t).2 :=
        (intern_lasting _ _).keeps t
      refine ⟨hmade.bound, fun {serial d} hd => ?_, fun b => ?_, hmade.current⟩
      · have hne : component.serial ≠ serial := by
          rintro rfl
          rw [arrayOf?, hd] at harray
          cases harray
        simpa [hne] using hmade.array hd
      · rw [← hmade.view b, view_eq, view_eq]
  · have hknown : t'.arrayOf? component = some ((array component).run t).1 := by
      apply h.array
      rw [run_array]
      cases harray : t.arrayOf? component with
      | some d => exact harray
      | none => simp
    rw [run_array, hknown]

theorem parameterized_lasting (base : Declaration) (args : List (TypeArgument Declaration)) :
    Lasting source (parameterized base args : TableM φ Declaration) := by
  unfold parameterized
  split
  · exact .pure base
  · exact intern_lasting _ _

theorem fieldType_lasting (hsteady : source.Steady) (type : FieldType) :
    Lasting source (fieldType source type) := by
  induction type with
  | base type => exact .pure none
  | object internal => exact internalType_lasting hsteady internal
  | array component ih =>
    refine .bind ih fun r => ?_
    cases r with
    | none => exact .pure none
    | some d => exact .map (array_lasting d)

theorem typeVariable_lasting (owner : Declaration) (name : String) :
    Lasting source (typeVariable owner name : TableM φ Declaration) := by
  unfold typeVariable
  exact intern_lasting _ _

theorem argument_lasting {scope : TypeScope} {a : TypeArgument ReferenceType}
    (ha : ∀ type, a.type? = some type → Lasting source (referenceType source scope type)) :
    Lasting source (argument source scope a) := by
  cases a with
  | any => exact .pure _
  | exact type | upper type | lower type =>
    rw [argument]
    exact .bind (ha type rfl) fun r => .pure _

theorem arguments_lasting {scope : TypeScope} {args : List (TypeArgument ReferenceType)}
    (hargs : ∀ a ∈ args, ∀ type, a.type? = some type →
      Lasting source (referenceType source scope type)) :
    Lasting source (arguments source scope args) := by
  induction args with
  | nil => exact .pure []
  | cons a rest ih =>
    rw [arguments]
    refine .bind (argument_lasting fun type htype => hargs a (by simp) type htype) fun first => ?_
    exact .bind (ih fun b hb => hargs b (by simp [hb])) fun others => .pure _

theorem referenceType_lasting (hsteady : source.Steady) (scope : TypeScope)
    (type : ReferenceType) : Lasting source (referenceType source scope type) := by
  induction type using ReferenceType.induction with
  | variableCase name =>
    rw [referenceType]
    cases scope.owner? name with
    | none => exact .pure none
    | some owner => exact .map (typeVariable_lasting owner name)
  | baseCase type => exact .pure none
  | arrayCase component ih =>
    rw [referenceType, valueType]
    refine .bind ih fun r => ?_
    cases r with
    | none => exact .pure none
    | some d => exact .map (array_lasting d)
  | classCase c ih =>
    rw [referenceType, classType_eq]
    refine .bind (internalType_lasting hsteady _) fun base => ?_
    cases base with
    | none => exact .pure none
    | some base =>
      exact .bind (arguments_lasting ih) fun args => .map (parameterized_lasting base args)

theorem classType_lasting (hsteady : source.Steady) (scope : TypeScope)
    (type : ClassType ReferenceType) : Lasting source (classType source scope type) := by
  have h := referenceType_lasting hsteady scope (.ofClass type)
  rwa [referenceType] at h

theorem valueType_lasting (hsteady : source.Steady) (scope : TypeScope)
    (type : ValueType ReferenceType) : Lasting source (valueType source scope type) := by
  cases type with
  | base type => exact .pure none
  | reference type => exact referenceType_lasting hsteady scope type

end Table

end Rebuild
