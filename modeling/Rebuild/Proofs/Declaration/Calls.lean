import Mathlib
import Rebuild.Proofs.Declaration.Answers

/-! Runs of calls on a table. Main statement: whatever is asked of a table, as long as it is fed
with declarations of its own, the table stays coherent, and an answer is a declaration of the table
that is spelled as one of the kind that the call stands for. -/
namespace Rebuild

variable {φ : Type}

namespace Table

/-! ## Calls -/

/-- What can be asked of a table. -/
inductive Call (φ : Type) where
  | package (qualified : String)
  | type (binary : String)
  | field (owner : Declaration) (name : String)
  | method (owner : Declaration) (name : String) (params : List FieldType)
  | constructor (owner : Declaration) (params : List FieldType)
  | typeVariable (owner : Declaration) (name : String)
  | localVariable (method : Declaration) (name : String) (slot : Nat)
  | array (component : Declaration)
  | parameterized (base : Declaration) (args : List (TypeArgument Declaration))
  | fieldType (type : FieldType)
  | valueType (scope : TypeScope) (type : ValueType ReferenceType)
  | referenceType (scope : TypeScope) (type : ReferenceType)
  | resolve (request : Request)
  | evict (binary : String)
  | invalidate
  /-- The artifacts change; the table is not told. -/
  | change (finder : φ)

namespace Request

/-- The declarations that a request comes with. -/
def operands : Request → List Declaration
  | generic _ scope => scope.frames.map TypeFrame.owner
  | localVariable owner _ _ => [owner]
  | type _ | package _ | member _ _ _ | erased _ => []

/-- The kind of the declaration that is asked for. -/
def kind : Request → DeclarationKind
  | type _ => .type
  | package _ => .package
  | member _ name descriptor =>
    if descriptor.toList.head? = some '(' then
      if name = "<init>" then .constructor else .method
    else .field
  | erased t => erasedKind t
  | generic t _ => genericKind t
  | localVariable _ _ _ => .localVariable

/-- All names in a request belong to a vocabulary. -/
def Named (V : Vocabulary) : Request → Prop
  | type _ | erased _ => True
  | package qualified => ∀ q ∈ packagesAround qualified, V.package q
  | member _ name descriptor =>
    (name = "<init>" ∧ descriptor.toList.head? = some '(' ∨ V.word name) ∧
      ∀ d, MethodDescriptor.parse descriptor = .ok d → ∀ p ∈ d.params, p.Within V.word
  | generic t _ => t.Within V.word
  | localVariable _ name _ => V.word name

end Request

namespace Call

def run (source : Finder φ) : Call φ → TableM φ (Option Declaration)
  | package qualified => some <$> Table.package qualified
  | type binary => Table.type source binary
  | field owner name => Table.field source owner name
  | method owner name params => Table.method source owner name params
  | constructor owner params => Table.constructor source owner params
  | typeVariable owner name => some <$> Table.typeVariable owner name
  | localVariable owner name slot => some <$> Table.localVariable owner name slot
  | array component => some <$> Table.array component
  | parameterized base args => some <$> Table.parameterized base args
  | fieldType t => Table.fieldType source t
  | valueType scope t => Table.valueType source scope t
  | referenceType scope t => Table.referenceType source scope t
  | resolve request => Table.resolve source request
  | evict binary => fun t => (none, t.evict binary)
  | invalidate => fun t => (none, t.invalidate)
  | change finder => fun t => (none, { t with finder })

/-- The declarations that a call comes with. -/
def operands : Call φ → List Declaration
  | field owner _ | method owner _ _ | constructor owner _ | typeVariable owner _ => [owner]
  | localVariable owner _ _ => [owner]
  | array component => [component]
  | parameterized base args => base :: args.flatMap fun a => a.type?.toList
  | valueType scope _ | referenceType scope _ => scope.frames.map TypeFrame.owner
  | resolve request => request.operands
  | package _ | type _ | fieldType _ | evict _ | invalidate | change _ => []

/-- The kind of the declaration that a call stands for. -/
def kind? : Call φ → Option DeclarationKind
  | package _ => some .package
  | type _ => some .type
  | field _ _ => some .field
  | method _ _ _ => some .method
  | constructor _ _ => some .constructor
  | typeVariable _ _ => some .typeVariable
  | localVariable _ _ _ => some .localVariable
  | array _ => some .array
  | parameterized base args => some (if args = [] then base.kind else .parameterized)
  | fieldType t => some (erasedKind t)
  | valueType _ (.reference t) => some (genericKind t)
  | valueType _ (.base _) => none
  | referenceType _ t => some (genericKind t)
  | resolve request => some request.kind
  | evict _ | invalidate | change _ => none

/-- All names in a call belong to a vocabulary, and artifacts change within a world. -/
def Named (V : Vocabulary) (world : φ → Prop) : Call φ → Prop
  | package qualified => ∀ q ∈ packagesAround qualified, V.package q
  | field _ name | typeVariable _ name | localVariable _ name _ => V.word name
  | method _ name params => V.word name ∧ ∀ p ∈ params, p.Within V.word
  | constructor _ params => ∀ p ∈ params, p.Within V.word
  | valueType _ (.reference t) | referenceType _ t => t.Within V.word
  | resolve request => request.Named V
  | change finder => world finder
  | type _ | array _ | parameterized _ _ | fieldType _ | valueType _ (.base _) | evict _
  | invalidate => True

/-- Does the call look a declaration up? -/
def isLookup : Call φ → Bool
  | evict _ | invalidate | change _ => false
  | _ => true

end Call

/-! ## Runs -/

/-- A table in use, with the declarations that it had before. -/
structure InUse (φ : Type) where
  table : Table φ
  had : Declaration → Prop := fun _ => False

namespace InUse

/-- A declaration of the table, now or before. -/
def Has (u : InUse φ) (d : Declaration) : Prop := u.had d ∨ u.table.get? d.id = some d

/-- A new table. -/
def start (finder : φ) : InUse φ := { table := { finder } }

def next (source : Finder φ) (u : InUse φ) (call : Call φ) : InUse φ :=
  ⟨((call.run source).run u.table).2, u.Has⟩

/-- What a call answers. -/
def answer (source : Finder φ) (u : InUse φ) (call : Call φ) : Option Declaration :=
  ((call.run source).run u.table).1

def run (source : Finder φ) (u : InUse φ) (calls : List (Call φ)) : InUse φ :=
  calls.foldl (next source) u

/-- The calls come with declarations of the table only. -/
def Fed (source : Finder φ) : InUse φ → List (Call φ) → Prop
  | _, [] => True
  | u, call :: rest => (∀ d ∈ call.operands, u.Has d) ∧ Fed source (u.next source call) rest

variable {source : Finder φ} {u : InUse φ} {call : Call φ} {calls more : List (Call φ)}

theorem fed_append : Fed source u (calls ++ more) ↔
    Fed source u calls ∧ Fed source (u.run source calls) more := by
  induction calls generalizing u with
  | nil => simp [Fed, run]
  | cons call rest ih => simp [Fed, run, ih, and_assoc]

end InUse

end Table

open Setting

variable {S : Setting φ} {t : Table φ}

/-! ## What one call does -/

theorem Table.member_yields (owner : String) {name descriptor : String}
    (hnames : (Table.Request.member owner name descriptor).Named S.names) :
    S.Yields t (Table.member S.source owner name descriptor)
      (S.Finds (Table.Request.member owner name descriptor).kind) := by
  obtain ⟨hname, hparams⟩ := hnames
  refine .bind (Table.type_yields owner) fun d t' _ _ => ?_
  cases d with
  | none => exact .pure fun _ => trivial
  | some d =>
    simp only [Table.Request.kind]
    split
    · cases hparse : MethodDescriptor.parse descriptor with
      | error e => exact .pure fun _ => trivial
      | ok p =>
        simp only
        split
        · exact Table.constructor_yields d (hparams p hparse)
        next hne =>
          exact Table.method_yields d (hname.resolve_left fun h => hne h.1) (hparams p hparse)
    next hhead => exact Table.field_yields d (hname.resolve_left fun h => hhead h.2)

theorem Table.resolve_yields (request : Table.Request) (hnames : request.Named S.names)
    (hoperands : ∀ d ∈ request.operands, S.Known t d) :
    S.Yields t (Table.resolve S.source request) (S.Finds request.kind) := by
  cases request with
  | type binary =>
    refine (Table.type_yields binary).mono fun d t' _ _ hd => ?_
    cases d with
    | none => trivial
    | some d => exact hd.1
  | package qualified => exact .map (Table.package_yields hnames)
  | member owner name descriptor => exact Table.member_yields owner hnames
  | erased type => exact Table.fieldType_yields type
  | generic type scope =>
    exact Table.referenceType_yields (fun frame hframe =>
      hoperands _ (List.mem_map_of_mem hframe)) hnames
  | localVariable method name slot =>
    exact .map (Table.localVariable_yields (hoperands method (by simp [Table.Request.operands]))
      hnames)

namespace Table.Call

/-- The answer of a call is spelled as a declaration of its kind. -/
theorem run_yields {call : Call φ} (hlookup : call.isLookup) (hnames : call.Named S.names S.world)
    (hoperands : ∀ d ∈ call.operands, S.Known t d) :
    S.Yields t (call.run S.source) (IfSome fun d t' =>
      ∃ kind, call.kind? = some kind ∧ S.Answers kind t' d) := by
  have hfinds {m : TableM φ (Option Declaration)} {kind : DeclarationKind}
      (hkind : call.kind? = some kind) (hm : S.Yields t m (S.Finds kind)) :
      S.Yields t m (IfSome fun d t' => ∃ kind, call.kind? = some kind ∧ S.Answers kind t' d) := by
    refine hm.mono fun d t' _ _ hd => ?_
    cases d with
    | none => trivial
    | some d => exact ⟨kind, hkind, hd⟩
  cases call with
  | package qualified => exact hfinds rfl (.map (package_yields hnames))
  | type binary =>
    exact hfinds rfl (resolve_yields (.type binary) trivial (by simp [Request.operands]))
  | field owner name => exact hfinds rfl (field_yields owner hnames)
  | method owner name params => exact hfinds rfl (method_yields owner hnames.1 hnames.2)
  | constructor owner params => exact hfinds rfl (constructor_yields owner hnames)
  | typeVariable owner name =>
    exact hfinds rfl (.map ((typeVariable_yields (hoperands owner (by simp [operands]))
      hnames).mono fun d t' _ _ hd => hd.1))
  | localVariable method name slot =>
    exact hfinds rfl (.map (localVariable_yields (hoperands method (by simp [operands])) hnames))
  | array component =>
    exact hfinds rfl (.map ((array_yields (hoperands component (by simp [operands]))).mono
      fun d t' _ _ hd => hd.1))
  | parameterized base args =>
    refine hfinds rfl (.map ?_)
    have hbase : S.Known t base := hoperands base (by simp [operands])
    by_cases hempty : args = []
    · subst hempty
      exact .pure fun ht => ⟨hbase, base, ht.spelled hbase, rfl, rfl⟩
    · rw [if_neg hempty]
      refine (parameterized_yields hbase (fun a ha x hx => hoperands x ?_) hempty).mono
        fun d t' _ _ hd => hd.1
      exact List.mem_cons_of_mem _ (List.mem_flatMap.mpr ⟨a, ha, by simp [hx]⟩)
  | fieldType type => exact hfinds rfl (fieldType_yields type)
  | valueType scope type =>
    cases type with
    | base type => exact .pure fun _ => trivial
    | reference type =>
      exact hfinds rfl (referenceType_yields (fun frame hframe =>
        hoperands _ (List.mem_map_of_mem hframe)) hnames)
  | referenceType scope type =>
    exact hfinds rfl (referenceType_yields (fun frame hframe =>
      hoperands _ (List.mem_map_of_mem hframe)) hnames)
  | resolve request => exact hfinds rfl (resolve_yields request hnames hoperands)
  | evict binary => cases hlookup
  | invalidate => cases hlookup
  | change finder => cases hlookup

end Table.Call

/-! ## What a run does -/

namespace Setting

/-- The setting of a table in use. -/
def of (S : Setting φ) (u : Table.InUse φ) : Setting φ := { S with held := u.had }

/-- The table in use is coherent. -/
def Sound (S : Setting φ) (u : Table.InUse φ) : Prop := (S.of u).Coherent u.table

variable {u : Table.InUse φ} {call : Table.Call φ} {calls : List (Table.Call φ)}

theorem Sound.start {s₀ : φ} (hs₀ : S.world s₀) : S.Sound (.start s₀) := by
  have hknown {d : Declaration} : ¬ (S.of (.start s₀)).Known (Table.InUse.start s₀).table d :=
    fun hd => hd.elim id fun h => by cases h
  exact ⟨fun h => (by cases h), fun hd => (hknown hd).elim, fun hd => (hknown hd).elim,
    fun hd => (hknown hd).elim, fun h => (by cases h), fun h => (by cases h), hs₀⟩

/-- What the table has now is still in use after the call. -/
theorem Sound.hold (hu : S.Sound u) : (S.of (u.next S.source call)).Coherent u.table := by
  have hknown {d : Declaration} (hd : (S.of (u.next S.source call)).Known u.table d) :
      (S.of u).Known u.table d := hd.elim id .inr
  refine ⟨hu.id_eq, fun hd => hu.spelled (hknown hd), fun hd => hu.serial_lt (hknown hd),
    fun hd he => hu.serial_injective (hknown hd) (hknown he), fun ha => ?_, hu.loaded, hu.finder⟩
  obtain ⟨haknown, c, hc, hrest⟩ := hu.array ha
  exact ⟨.inl haknown, c, .inl hc, hrest⟩

/-- A lookup takes steps. -/
theorem Sound.lookup (hu : S.Sound u) (hlookup : call.isLookup)
    (hnamed : call.Named S.names S.world) (hfed : ∀ d ∈ call.operands, u.Has d) :
    (S.of (u.next S.source call)).Steps u.table (u.next S.source call).table ∧
      IfSome (fun d t' => ∃ kind, call.kind? = some kind ∧
        (S.of (u.next S.source call)).Answers kind t' d)
        (u.answer S.source call) (u.next S.source call).table :=
  Table.Call.run_yields (S := S.of (u.next S.source call)) hlookup hnamed
    (fun d hd => .inl (hfed d hd)) hu.hold

/-- A call leaves a sound table, and its answer is spelled as one of its kind. -/
theorem Sound.next (hu : S.Sound u) (hnamed : call.Named S.names S.world)
    (hfed : ∀ d ∈ call.operands, u.Has d) : S.Sound (u.next S.source call) ∧
      ∀ d, u.answer S.source call = some d → ∃ kind, call.kind? = some kind ∧
        (S.of (u.next S.source call)).Answers kind (u.next S.source call).table d := by
  by_cases hlookup : call.isLookup
  · obtain ⟨hsteps, hanswer⟩ := hu.lookup hlookup hnamed hfed
    refine ⟨hu.hold.steps hsteps, fun d hd => ?_⟩
    rw [hd] at hanswer
    exact hanswer
  · have hold : (S.of (u.next S.source call)).Coherent u.table := hu.hold
    cases call with
    | evict binary =>
      refine ⟨⟨hold.id_eq, hold.spelled, hold.serial_lt, hold.serial_injective, hold.array,
        fun {b c} hb => ?_, hold.finder⟩, fun d hd => (by cases hd)⟩
      change (u.table.classes.filterKeys _).get? b = _ at hb
      rw [Dict.get?_filterKeys] at hb
      split at hb
      · exact hold.loaded hb
      · cases hb
    | invalidate =>
      have hknown {d : Declaration} (hd : (S.of (u.next S.source .invalidate)).Known
          (u.next S.source .invalidate).table d) :
          (S.of (u.next S.source .invalidate)).Known u.table d :=
        hd.elim .inl fun h => by cases h
      refine ⟨⟨fun h => (by cases h), fun hd => hold.spelled (hknown hd),
        fun hd => hold.serial_lt (hknown hd),
        fun hd he => hold.serial_injective (hknown hd) (hknown he), fun ha => ?_,
        fun h => (by cases h), hold.finder⟩, fun d hd => (by cases hd)⟩
      obtain ⟨haknown, c, hc, hrest⟩ := hold.array ha
      exact ⟨.inl (haknown.elim id .inr), c, .inl (hc.elim id .inr), hrest⟩
    | change finder =>
      exact ⟨⟨hold.id_eq, hold.spelled, hold.serial_lt, hold.serial_injective, hold.array,
        hold.loaded, hnamed⟩, fun d hd => (by cases hd)⟩
    | _ => exact absurd rfl hlookup

/-- A run leaves a sound table. -/
theorem Sound.run (hu : S.Sound u) (hnamed : ∀ call ∈ calls, call.Named S.names S.world)
    (hfed : u.Fed S.source calls) : S.Sound (u.run S.source calls) := by
  induction calls generalizing u with
  | nil => exact hu
  | cons call rest ih =>
    exact ih (hu.next (hnamed call (by simp)) hfed.1).1 (fun c hc => hnamed c (by simp [hc]))
      hfed.2

end Setting

end Rebuild
