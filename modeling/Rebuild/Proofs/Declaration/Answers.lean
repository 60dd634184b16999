import Mathlib
import Rebuild.Proofs.Declaration.Interning

/-! What looking up answers, one operation of the table after the other: each takes the steps of a
coherent table, and its answer is spelled as a declaration of the kind that it stands for. -/
namespace Rebuild

open Artifact (ClassFile Member)

variable {φ : Type} {S : Setting φ} {t : Table φ}

namespace Name

theorem head?_enclosing (binary : String) : (enclosing binary).head? = some binary := by
  have (n : Nat) : (enclosingUpTo n binary).head? = some binary := by
    cases n with
    | zero => rfl
    | succ n =>
      rw [enclosingUpTo]
      split <;> rfl
  exact this binary.length

end Name

namespace Setting

/-- An answer, if there is one, has a property. -/
def IfSome {α : Type} (Q : α → Table φ → Prop) : Option α → Table φ → Prop
  | none, _ => True
  | some a, t => Q a t

/-- The answer, if there is one, stands for a declaration of some kind. -/
abbrev Finds (S : Setting φ) (kind : DeclarationKind) : Option Declaration → Table φ → Prop :=
  IfSome fun d t => S.Answers kind t d

/-- The declarations of a scope belong to the table. -/
def InScope (S : Setting φ) (t : Table φ) (scope : TypeScope) : Prop :=
  ∀ frame ∈ scope.frames, S.Known t frame.owner

theorem InScope.steps {t' : Table φ} {scope : TypeScope} (h : S.InScope t scope)
    (hsteps : S.Steps t t') : S.InScope t' scope :=
  fun frame hframe => (h frame hframe).steps hsteps

theorem InScope.owner? {scope : TypeScope} (h : S.InScope t scope) {name : String}
    {owner : Declaration} (howner : scope.owner? name = some owner) : S.Known t owner := by
  unfold TypeScope.owner? at howner
  split at howner
  next frame hframe =>
    obtain rfl : frame.owner = owner := by simpa using howner
    exact h frame (List.mem_of_find?_eq_some hframe)
  next =>
    obtain ⟨frame, hframe, rfl⟩ := Option.map_eq_some_iff.mp howner
    exact h frame (List.mem_of_getLast? hframe)

end Setting

open Setting

namespace Table

/-- Binding an identifier answers the declaration that has it. -/
theorem intern_yields {id : String} {make : Nat → Declaration} {kind : DeclarationKind}
    (hid : ∀ n, (make n).id = id) (hserial : ∀ n, (make n).serial = n)
    (hkind : ∀ n, (make n).kind = kind)
    (hspelled : S.Coherent t → ∀ n, Spelled S.names (make n)) :
    S.Yields t (intern id make) fun d t' => S.Answers kind t' d ∧ d.id = id := by
  intro ht
  have hanswer {t' : Table φ} {d : Declaration} (hd : t'.get? d.id = some d) (heq : d.id = id) :
      S.Answers kind t' d ∧ d.id = id :=
    ⟨⟨.inr hd, make 0, hspelled ht 0, hkind 0, by rw [hid, heq]⟩, heq⟩
  rw [run_intern]
  split
  next d hd =>
    have heq : d.id = id := ht.id_eq hd
    exact ⟨.refl, hanswer (heq ▸ hd) heq⟩
  next hnone =>
    have hstep := Step.bind (S := S) (d := make t.nextSerial) (by rw [hid, hnone]) (hserial _)
      (hspelled ht _)
    rw [hid] at hstep
    exact ⟨.single hstep, hanswer (by simp [get?, hid]) (hid _)⟩

theorem classFile_yields (binary : String) :
    S.Yields t (classFile S.source binary) fun c _ => c.isSome → S.names.type binary := by
  intro ht
  have hstep : S.Step t ((classFile S.source binary).run t).2 := .load binary
  refine ⟨.single hstep, fun hsome => ?_⟩
  rw [run_classFile] at hsome
  split at hsome
  next known hknown =>
    obtain ⟨c, rfl⟩ := Option.isSome_iff_exists.mp hsome
    exact ht.loaded hknown
  next => exact S.covers.type_found _ _ ht.finder hsome

/-! ## Packages and types -/

theorem packagesIn_yields {owner : Declaration} {prefixes : List (String × String)}
    (howner : S.Answers .package t owner) (hnames : ∀ p ∈ prefixes, S.names.package p.1) :
    S.Yields t (packagesIn owner prefixes) fun d t' => S.Answers .package t' d := by
  induction prefixes generalizing t owner with
  | nil => exact .pure fun _ => howner
  | cons p rest ih =>
    obtain ⟨id, name⟩ := p
    refine .bind (intern_yields (fun _ => rfl) (fun _ => rfl) (fun _ => rfl)
      fun _ _ => .package rfl (hnames (id, name) (by simp))) fun d t' _ hd => ?_
    exact ih hd.1 fun p hp => hnames p (by simp [hp])

theorem package_yields {qualified : String}
    (hnames : ∀ q ∈ packagesAround qualified, S.names.package q) :
    S.Yields t (package qualified) fun d t' => S.Answers .package t' d := by
  refine .bind (intern_yields (fun _ => rfl) (fun _ => rfl) (fun _ => rfl)
    fun _ _ => .package rfl (hnames _ (by simp [packagesAround]))) fun d t' _ hd => ?_
  split
  · exact .pure fun _ => hd.1
  · refine packagesIn_yields hd.1 fun p hp => hnames p.1 ?_
    exact List.mem_cons_of_mem _ (List.mem_map_of_mem hp)

theorem typeWithin_yields (names : List String) :
    S.Yields t (typeWithin S.source names) (IfSome fun d t' =>
      S.Answers .type t' d ∧ names.head? = some d.id ∧ S.names.type d.id) := by
  induction names generalizing t with
  | nil => exact .pure fun _ => trivial
  | cons binary around ih =>
    refine .get_bind ?_
    cases hbound : (t.get? binary).filter Declaration.isType with
    | some d =>
      obtain ⟨hget, htype⟩ := Option.filter_eq_some_iff.mp hbound
      refine .bind (classFile_yields binary) fun c t' hsteps hc => .pure fun ht' => ?_
      cases c with
      | none => trivial
      | some c =>
        have hget' : t'.get? binary = some d := hsteps.get?_of_get? hget
        obtain rfl : d.id = binary := ht'.id_eq hget'
        have hknown : S.Known t' d := .inr hget'
        exact ⟨⟨hknown, d, ht'.spelled hknown, by simpa [Declaration.isType] using htype, rfl⟩,
          rfl, hc rfl⟩
    | none =>
      refine .bind (classFile_yields binary) fun c t₁ _ hc => ?_
      cases c with
      | none => exact .pure fun _ => trivial
      | some c =>
        -- The owner is of no matter for the identifier.
        have hintern (t : Table φ) (owner : Declaration) : S.Yields t (intern binary fun serial => {
            serial, id := binary, kind := .type, name := Name.simple binary
            owner := some owner, modifiers := c.declaredAccess }) fun d t' =>
              S.Answers .type t' d ∧ d.id = binary :=
          intern_yields (fun _ => rfl) (fun _ => rfl) (fun _ => rfl) fun _ _ => .type rfl (hc rfl)
        have hmap (t : Table φ) (owner : Declaration) := (hintern t owner).mono (R := fun d t' =>
            S.Answers .type t' d ∧ (binary :: around).head? = some d.id ∧ S.names.type d.id)
          fun d t' _ _ hd => ⟨hd.1, by simp [hd.2], hd.2 ▸ hc rfl⟩
        refine .bind ih fun r t₂ _ hr => ?_
        cases r with
        | some owner => exact .map (hmap t₂ owner)
        | none =>
          refine .bind (package_yields (S.covers.package_around binary (hc rfl)))
            fun owner t₃ _ _ => ?_
          exact .map (hmap t₃ owner)

theorem type_yields (binary : String) : S.Yields t (type S.source binary) (IfSome fun d t' =>
    S.Answers .type t' d ∧ d.id = binary ∧ S.names.type binary) := by
  refine (typeWithin_yields _).mono fun d t' _ _ hd => ?_
  cases d with
  | none => trivial
  | some d =>
    obtain ⟨hanswers, hhead, htype⟩ := hd
    rw [Name.head?_enclosing] at hhead
    obtain rfl : binary = d.id := by simpa using hhead
    exact ⟨hanswers, rfl, htype⟩

theorem isSome_map_some {α : Type} (m : TableM φ α) (t : Table φ) :
    ((some <$> m).run t).1.isSome = true := rfl

/-- A type is found exactly if its artifact is. -/
theorem type_isSome (source : Finder φ) (binary : String) (t : Table φ) :
    ((type source binary).run t).1.isSome = ((classFile source binary).run t).1.isSome := by
  obtain ⟨around, hnames⟩ : ∃ around, Name.enclosing binary = binary :: around := by
    have := Name.head?_enclosing binary
    cases henclosing : Name.enclosing binary <;> simp_all
  simp only [type, hnames, typeWithin, StateT.run_bind, StateT.run_get, pure_bind]
  cases (t.get? binary).filter Declaration.isType with
  | some d =>
    rw [run_bind]
    exact Option.isSome_map
  | none =>
    rw [run_bind]
    cases ((classFile source binary).run t).1 with
    | none => rfl
    | some c =>
      simp only [run_bind]
      split
      next owner _ => exact isSome_map_some _ _
      next =>
        rw [run_bind]
        exact isSome_map_some _ _

/-- A type and its artifact are found together, or neither is. -/
theorem type_cases (ht : S.Coherent t) (binary : String) :
    (((type S.source binary).run t).1 = none ∧ ((classFile S.source binary).run t).1 = none) ∨
      ∃ d c, ((type S.source binary).run t).1 = some d ∧
        ((classFile S.source binary).run t).1 = some c ∧
        S.Answers .type ((type S.source binary).run t).2 d ∧ d.id = binary := by
  have hsome := type_isSome S.source binary t
  have hanswer := (type_yields binary ht).2
  cases htype : ((type S.source binary).run t).1 with
  | none =>
    rw [htype] at hsome
    exact .inl ⟨rfl, by simpa using hsome.symm⟩
  | some d =>
    rw [htype] at hsome hanswer
    obtain ⟨c, hc⟩ := Option.isSome_iff_exists.mp hsome.symm
    exact .inr ⟨d, c, rfl, hc, hanswer.1, hanswer.2.1⟩

/-! ## Members -/

theorem searchMember_yields (inherited : Bool) (select : ClassFile → Option Member) (n : Nat)
    (queue seen : List String) :
    S.Yields t (searchMember S.source inherited select n queue seen) (IfSome fun r t' =>
      S.Answers .type t' r.1 ∧ S.names.type r.1.id) := by
  induction n generalizing t queue seen with
  | zero => exact .pure fun _ => trivial
  | succ n ih =>
    rw [searchMember]
    split
    · exact .pure fun _ => trivial
    next binary rest _ =>
      refine .bind (classFile_yields binary) fun c t₁ _ _ => ?_
      cases c with
      | none => exact ih _ _
      | some c =>
        cases hselect : select c with
        | some m =>
          simp only [hselect]
          refine .bind (type_yields binary) fun d t₂ _ hd => .pure fun _ => ?_
          cases d with
          | none => trivial
          | some d => exact ⟨hd.1, hd.2.1 ▸ hd.2.2⟩
        | none =>
          simp only [hselect]
          split
          · exact ih _ _
          · exact .pure fun _ => trivial

theorem findMember_yields (start : Declaration) (inherited : Bool)
    (select : ClassFile → Option Member) :
    S.Yields t (findMember S.source start inherited select) (IfSome fun r t' =>
      S.Answers .type t' r.1 ∧ S.names.type r.1.id) :=
  .get_bind (searchMember_yields _ _ _ _ _)

theorem field_yields (owner : Declaration) {name : String} (hname : S.names.word name) :
    S.Yields t (field S.source owner name) (S.Finds .field) := by
  refine .bind (findMember_yields _ _ _) fun r t' _ hr => ?_
  cases r with
  | none => exact .pure fun _ => trivial
  | some r =>
    obtain ⟨declaring, m⟩ := r
    refine .map (.mono (intern_yields (fun _ => rfl) (fun _ => rfl) (fun _ => rfl)
      fun _ _ => ?_) fun d t' _ _ hd => hd.1)
    exact .field rfl hr.2 hname rfl

/-- Methods and constructors differ in what makes their names fit. -/
theorem executable_yields (owner : Declaration) {name : String} {params : List FieldType}
    {kind : DeclarationKind} (hspelled : ∀ d : Declaration, d.kind = kind → ∀ declaring,
      S.names.type declaring → d.id = executableId declaring name params → Spelled S.names d) :
    S.Yields t (executable S.source owner name params kind) (S.Finds kind) := by
  refine .bind (findMember_yields _ _ _) fun r t' _ hr => ?_
  cases r with
  | none => exact .pure fun _ => trivial
  | some r =>
    obtain ⟨declaring, m⟩ := r
    refine .map (.mono (intern_yields (fun _ => rfl) (fun _ => rfl) (fun _ => rfl)
      fun _ _ => ?_) fun d t' _ _ hd => hd.1)
    exact hspelled _ rfl declaring.id hr.2 rfl

theorem method_yields (owner : Declaration) {name : String} {params : List FieldType}
    (hname : S.names.word name) (hparams : ∀ p ∈ params, FieldType.Within S.names.word p) :
    S.Yields t (method S.source owner name params) (S.Finds .method) :=
  executable_yields owner fun _ hkind _ howner hid => .method hkind howner hname hparams hid

theorem constructor_yields (owner : Declaration) {params : List FieldType}
    (hparams : ∀ p ∈ params, FieldType.Within S.names.word p) :
    S.Yields t (constructor S.source owner params) (S.Finds .constructor) :=
  executable_yields owner fun _ hkind _ howner hid => .constructor hkind howner hparams hid

/-! ## Variables and types made from others -/

theorem typeVariable_yields {owner : Declaration} {name : String} (howner : S.Known t owner)
    (hname : S.names.word name) :
    S.Yields t (typeVariable owner name) fun d t' =>
      S.Answers .typeVariable t' d ∧ d.id = owner.id ++ "!" ++ name := by
  unfold typeVariable
  exact intern_yields (fun _ => rfl) (fun _ => rfl) (fun _ => rfl)
    fun ht _ => .typeVariable rfl (ht.spelled howner) hname rfl

theorem localVariable_yields {method : Declaration} {name : String} {slot : Nat}
    (hmethod : S.Known t method) (hname : S.names.word name) :
    S.Yields t (localVariable method name slot) fun d t' => S.Answers .localVariable t' d := by
  unfold localVariable
  exact .mono (intern_yields (fun _ => rfl) (fun _ => rfl) (fun _ => rfl)
    fun ht _ => .localVariable rfl (ht.spelled hmethod) hname rfl) fun _ _ _ _ hd => hd.1

/-- The array of a component, remembered or new, has the identifier of that. -/
theorem array_yields {component : Declaration} (hcomponent : S.Known t component) :
    S.Yields t (array component) fun d t' =>
      S.Answers .array t' d ∧ d.id = component.id ++ "[]" := by
  refine .of_coherent fun ht => .get_bind ?_
  have hsketch (n : Nat) : Spelled S.names {
      serial := n, id := component.id ++ "[]", kind := .array, name := component.name ++ "[]"
      owner := some component } := .array rfl rfl (ht.spelled hcomponent) rfl
  cases hslot : t.arrayOf? component with
  | some a =>
    obtain ⟨hknown, hid⟩ := ht.arrayOf?_id hcomponent hslot
    exact .pure fun _ => ⟨⟨hknown, _, hsketch 0, rfl, hid.symm⟩, hid⟩
  | none =>
    refine .bind (intern_yields (fun _ => rfl) (fun _ => rfl) (fun _ => rfl)
      fun _ n => hsketch n) fun d t' hsteps hd ht' => ?_
    have hattach := Step.attach (hcomponent.steps hsteps) hd.1.known hd.2
    exact ⟨.single hattach, hd.1.steps (.single hattach), hd.2⟩

theorem parameterized_yields {base : Declaration} {args : List (TypeArgument Declaration)}
    (hbase : S.Known t base) (hargs : ∀ a ∈ args, ∀ x, a.type? = some x → S.Known t x)
    (hne : args ≠ []) : S.Yields t (parameterized base args) fun d t' =>
      S.Answers .parameterized t' d ∧ d.id = parameterizedId base.id args := by
  rw [parameterized, if_neg (by simpa using hne)]
  refine intern_yields (fun _ => rfl) (fun _ => rfl) (fun _ => rfl) fun ht _ => ?_
  exact .parameterized rfl rfl (ht.spelled hbase) hne
    (fun a ha x hx => ht.spelled (hargs a ha x hx)) rfl

/-! ## Descriptors and signatures -/

/-- The kind of the declaration of an erased type. -/
def erasedKind : FieldType → DeclarationKind
  | .array _ => .array
  | .base _ | .object _ => .type

theorem fieldType_yields (type : FieldType) :
    S.Yields t (fieldType S.source type) (S.Finds (erasedKind type)) := by
  induction type generalizing t with
  | base type => exact .pure fun _ => trivial
  | object internal =>
    refine (type_yields (Name.toBinary internal)).mono fun d t' _ _ hd => ?_
    cases d with
    | none => trivial
    | some d => exact hd.1
  | array component ih =>
    refine .bind ih fun c t' _ hc => ?_
    cases c with
    | none => exact .pure fun _ => trivial
    | some c => exact .map ((array_yields hc.known).mono fun d t' _ _ hd => hd.1)

theorem arguments_append (source : Finder φ) (scope : TypeScope)
    (args more : List (TypeArgument ReferenceType)) :
    arguments source scope (args ++ more) = do
      let first ← arguments source scope args
      let others ← arguments source scope more
      return first ++ others := by
  induction args with
  | nil => simp [arguments]
  | cons a rest ih => simp [arguments, ih]

theorem segmentsArguments_eq (source : Finder φ) (scope : TypeScope)
    (segments : List (ClassSegment ReferenceType)) : segmentsArguments source scope segments =
      arguments source scope (segments.flatMap ClassSegment.args) := by
  induction segments with
  | nil => simp [segmentsArguments, arguments]
  | cons segment rest ih =>
    obtain ⟨name, args⟩ := segment
    simp [segmentsArguments, segmentArguments, arguments_append, ih]

/-- The arguments of a class type are looked up one after the other, whatever segment has them. -/
theorem classType_eq (source : Finder φ) (scope : TypeScope) (c : ClassType ReferenceType) :
    classType source scope c = (do
      match ← internalType source c.internalName with
      | none => return none
      | some base =>
        let args ← arguments source scope c.args
        some <$> parameterized base args) := by
  obtain ⟨⟨name, args⟩, nested⟩ := c
  rw [classType, ClassType.args_mk, arguments_append, segmentsArguments_eq, segmentArguments]
  refine bind_congr fun base => ?_
  cases base <;> simp

/-- The kind of the declaration of a generic type. -/
def genericKind : ReferenceType → DeclarationKind
  | .typeVariable _ => .typeVariable
  | .array _ => .array
  | .ofClass c => if c.args = [] then .type else .parameterized

theorem argument_yields {scope : TypeScope} {a : TypeArgument ReferenceType}
    (ha : ∀ type, a.type? = some type → S.Yields t (referenceType S.source scope type)
      (S.Finds (genericKind type))) :
    S.Yields t (argument S.source scope a) fun x t' => ∀ d, x.type? = some d → S.Known t' d := by
  cases a with
  | any => exact .pure fun _ d hd => by cases hd
  | exact type | upper type | lower type =>
    rw [argument]
    refine .bind (ha type rfl) fun r t' _ hr => .pure fun _ => ?_
    cases r with
    | none => exact fun d hd => by cases hd
    | some d =>
      rintro _ ⟨⟩
      exact hr.known

theorem arguments_yields {scope : TypeScope} {args : List (TypeArgument ReferenceType)}
    (hscope : S.InScope t scope)
    (hargs : ∀ a ∈ args, ∀ type, a.type? = some type → ∀ t, S.InScope t scope →
      S.Yields t (referenceType S.source scope type) (S.Finds (genericKind type))) :
    S.Yields t (arguments S.source scope args) fun l t' =>
      (∀ x ∈ l, ∀ d, x.type? = some d → S.Known t' d) ∧ (l = [] ↔ args = []) := by
  induction args generalizing t with
  | nil => exact .pure fun _ => by simp
  | cons a rest ih =>
    rw [arguments]
    refine .bind (argument_yields fun type htype => hargs a (by simp) type htype t hscope)
      fun first t₁ hsteps₁ hfirst => ?_
    refine .bind (ih (hscope.steps hsteps₁) fun b hb => hargs b (by simp [hb]))
      fun others t₂ hsteps₂ hothers => .pure fun _ => ⟨fun x hx d hd => ?_, by simp⟩
    rcases List.mem_cons.mp hx with rfl | hx
    · exact (hfirst d hd).steps hsteps₂
    · exact hothers.1 x hx d hd

/-- A generic type whose variables have names of the vocabulary. -/
theorem referenceType_yields {scope : TypeScope} {type : ReferenceType}
    (hscope : S.InScope t scope) (hnames : type.Within S.names.word) :
    S.Yields t (referenceType S.source scope type) (S.Finds (genericKind type)) := by
  induction type using ReferenceType.induction generalizing t with
  | variableCase name =>
    rw [referenceType]
    cases howner : scope.owner? name with
    | none => exact .pure fun _ => trivial
    | some owner =>
      exact .map ((typeVariable_yields (hscope.owner? howner) (hnames name .self)).mono
        fun d t' _ _ hd => hd.1)
  | baseCase type => exact .pure fun _ => trivial
  | arrayCase component ih =>
    rw [referenceType, valueType]
    refine .bind (ih hscope hnames.component) fun c t' _ hc => ?_
    cases c with
    | none => exact .pure fun _ => trivial
    | some c => exact .map ((array_yields hc.known).mono fun d t' _ _ hd => hd.1)
  | classCase c ih =>
    rw [referenceType, classType_eq]
    refine .bind (type_yields _) fun base t₁ hsteps₁ hbase => ?_
    cases base with
    | none => exact .pure fun _ => trivial
    | some base =>
      refine .bind (arguments_yields (hscope.steps hsteps₁) fun a ha type htype t ht =>
        ih a ha type htype ht (hnames.argument ha htype)) fun l t₂ hsteps₂ hl => .map ?_
      by_cases hempty : l = []
      · subst hempty
        refine .pure fun _ => ?_
        change S.Answers (if c.args = [] then .type else .parameterized) t₂ base
        rw [if_pos (hl.2.mp rfl)]
        exact hbase.1.steps hsteps₂
      · refine (parameterized_yields (hbase.1.known.steps hsteps₂) hl.1 hempty).mono
          fun d t' _ _ hd => ?_
        change S.Answers (if c.args = [] then .type else .parameterized) t' d
        rw [if_neg fun h => hempty (hl.2.mpr h)]
        exact hd.1

end Table

end Rebuild
