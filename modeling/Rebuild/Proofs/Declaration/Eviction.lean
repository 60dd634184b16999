import Mathlib
import Rebuild.Proofs.Declaration.Canonical
import Rebuild.Proofs.Declaration.Search

/-! Artifacts that change under a table. Main statement: if each type whose artifact changes is
evicted before the next lookup, a table answers as a new one does: the same lookups succeed, with
the same identifiers, whatever was loaded, missed or bound before. -/
namespace Rebuild

open Artifact (ClassFile)
open Setting

variable {φ : Type}

/-- Type variables have owners with the same identifiers. -/
def TypeScope.Alike (scope other : TypeScope) : Prop :=
  ∀ name, (scope.owner? name).map Declaration.id = (other.owner? name).map Declaration.id

namespace Table

/-- What the table has loaded of a type is what is found now. -/
def Current (source : Finder φ) (t : Table φ) (binary : String) : Prop :=
  ∀ known, t.classes.get? binary = some known → known = source.classFile? binary t.finder

theorem Current.view_eq {source : Finder φ} {t : Table φ} {binary : String}
    (h : t.Current source binary) : t.view source binary = source.classFile? binary t.finder := by
  rw [Table.view_eq]
  cases hknown : t.classes.get? binary with
  | none => rfl
  | some known => exact h known hknown

/-- The types with artifacts that changed without the table being told, after one more call. -/
def Call.staleAfter (source : Finder φ) (s : φ) (stale : String → Prop) : Call φ → String → Prop
  | change s', binary => stale binary ∨ Name.Dotted binary ∧
      (source.find (Name.toInternal binary) s').1 ≠ (source.find (Name.toInternal binary) s).1
  | evict top, binary => stale binary ∧ ¬ Name.isSelfOrNested top binary
  | invalidate, _ => False
  | _, binary => stale binary

namespace InUse

/-- Each change is told, by evicting the type or one around it, before the next lookup and
before the end. -/
def Reported (source : Finder φ) : InUse φ → (stale : String → Prop) → List (Call φ) → Prop
  | _, stale, [] => ∀ binary, ¬ stale binary
  | u, stale, call :: rest =>
    (call.isLookup → ∀ binary, ¬ stale binary) ∧
      Reported source (u.next source call) (call.staleAfter source u.table.finder stale) rest

/-- Two tables answer with the same identifiers, or neither answers. -/
structure AnswersAlike (source : Finder φ) (u v : InUse φ) : Prop where
  type : ∀ binary, Name.Dotted binary →
    (u.answer source (.type binary)).map Declaration.id =
      (v.answer source (.type binary)).map Declaration.id
  field : ∀ owner other : Declaration, Name.Dotted owner.id → other.id = owner.id → ∀ name,
    (u.answer source (.field owner name)).map Declaration.id =
      (v.answer source (.field other name)).map Declaration.id
  method : ∀ owner other : Declaration, Name.Dotted owner.id → other.id = owner.id →
    ∀ name params, (u.answer source (.method owner name params)).map Declaration.id =
      (v.answer source (.method other name params)).map Declaration.id
  constructor : ∀ owner other : Declaration, Name.Dotted owner.id → other.id = owner.id →
    ∀ params, (u.answer source (.constructor owner params)).map Declaration.id =
      (v.answer source (.constructor other params)).map Declaration.id
  fieldType : ∀ type, (u.answer source (.fieldType type)).map Declaration.id =
    (v.answer source (.fieldType type)).map Declaration.id
  referenceType : ∀ scope other : TypeScope, (∀ frame ∈ scope.frames, u.Has frame.owner) →
    (∀ frame ∈ other.frames, v.Has frame.owner) → scope.Alike other → ∀ type,
      (u.answer source (.referenceType scope type)).map Declaration.id =
        (v.answer source (.referenceType other type)).map Declaration.id

end InUse

end Table

/-! ## What stays current -/

variable {S : Setting φ} {t t' : Table φ} {binary : String}

theorem Setting.Step.current (hsteady : S.source.Steady) (h : S.Step t t')
    (hb : t.Current S.source binary) : t'.Current S.source binary := by
  cases h with
  | bind hfree hserial hspelled => exact hb
  | attach hc ha hid => exact hb
  | load loaded =>
    rw [Table.run_classFile]
    split
    · exact hb
    · intro known hknown
      rw [hsteady.classFile?_find]
      by_cases heq : loaded = binary
      · subst heq
        simpa using hknown.symm
      · exact hb known (by simpa [heq] using hknown)

theorem Setting.Steps.current (hsteady : S.source.Steady) (h : S.Steps t t')
    (hb : t.Current S.source binary) : t'.Current S.source binary := by
  induction h with
  | refl => exact hb
  | tail _ hstep ih => exact hstep.current hsteady ih

namespace Table.InUse

variable {source : Finder φ} {u v : InUse φ} {call : Call φ} {calls : List (Call φ)}
  {stale : String → Prop} {s₀ : φ}

/-- What is not stale stays current. -/
theorem current_next (hsteady : source.Steady) (hu : (Setting.any source).Sound u)
    (hfed : ∀ d ∈ call.operands, u.Has d) (hreported : call.isLookup → ∀ binary, ¬ stale binary)
    (hcurrent : ∀ binary, Name.Dotted binary → ¬ stale binary → u.table.Current source binary)
    (hbinary : Name.Dotted binary) (hfresh : ¬ call.staleAfter source u.table.finder stale binary) :
    (u.next source call).table.Current source binary := by
  by_cases hlookup : call.isLookup
  · exact (hu.lookup hlookup call.named_all hfed).1.current hsteady
      (hcurrent binary hbinary (hreported hlookup binary))
  · cases call with
    | evict top =>
      intro known hknown
      change (u.table.classes.filterKeys _).get? binary = some known at hknown
      rw [Dict.get?_filterKeys] at hknown
      split at hknown
      next hkept =>
        exact hcurrent binary hbinary (fun h => hfresh ⟨h, by simpa using hkept⟩) known hknown
      next => cases hknown
    | invalidate => exact fun known hknown => by cases hknown
    | change s' =>
      intro known hknown
      simp only [Call.staleAfter, not_or, not_and, not_not] at hfresh
      rw [hcurrent binary hbinary hfresh.1 known hknown, Finder.classFile?, Finder.classFile?,
        ← hfresh.2 hbinary]
      rfl
    | _ => exact absurd rfl hlookup

/-- After a run in which each change was told, all that is loaded is current. -/
theorem current_run (hsteady : source.Steady) (hu : (Setting.any source).Sound u)
    (hfed : u.Fed source calls) (hreported : u.Reported source stale calls)
    (hcurrent : ∀ binary, Name.Dotted binary → ¬ stale binary → u.table.Current source binary)
    (hbinary : Name.Dotted binary) : (u.run source calls).table.Current source binary := by
  induction calls generalizing u stale with
  | nil => exact hcurrent binary hbinary (hreported binary)
  | cons call rest ih =>
    exact ih (hu.next call.named_all hfed.1).1 hfed.2 hreported.2 fun b hb hfresh =>
      current_next hsteady hu hfed.1 hreported.1 hcurrent hb hfresh

/-- Lookups alone leave what a table knows or finds. -/
theorem view_run (hsteady : source.Steady) (hu : (Setting.any source).Sound u)
    (hfed : u.Fed source calls) (hlookups : ∀ call ∈ calls, call.isLookup) (binary : String) :
    (u.run source calls).table.view source binary = u.table.view source binary := by
  induction calls generalizing u with
  | nil => rfl
  | cons call rest ih =>
    have hsteps := (hu.lookup (hlookups call (by simp)) call.named_all hfed.1).1
    exact (ih (hu.next call.named_all hfed.1).1 hfed.2 fun c hc => hlookups c (by simp [hc])).trans
      (hsteps.view_eq hsteady binary)

/-! ## Answers -/

/-- Tables that know or find the same artifacts answer alike. -/
theorem answersAlike_of_view_eq (hlawful : source.Lawful) (hu : (Setting.any source).Sound u)
    (hv : (Setting.any source).Sound v) (hview : ∀ binary, Name.Dotted binary →
      u.table.view source binary = v.table.view source binary) : AnswersAlike source u v := by
  have hu' : ((Setting.any source).of u).Views u.table (v.table.view source) := hview
  have hv' : ((Setting.any source).of v).Views v.table (v.table.view source) := fun _ _ => rfl
  -- One bound is enough for the searches of both.
  have henough := enough_searchBound hlawful.bounded hv'
  have hany (params : List FieldType) (p : FieldType) (_ : p ∈ params) :
      p.Within Vocabulary.all.word := fun _ _ => trivial
  refine ⟨fun binary hb => ?_, fun d e hd hid name => ?_, fun d e hd hid name params => ?_,
    fun d e hd hid params => ?_, fun type => ?_, fun scope other hscope hother halike type => ?_⟩
  · exact (type_sketch hu' hb hu).2.trans (type_sketch hv' hb hv).2.symm
  · have hfield := (field_searchIn hlawful hv' (hid ▸ hd) name trivial (henough e.id) hv).2
    rw [hid] at hfield
    exact (field_searchIn hlawful hu' hd name trivial (henough d.id) hu).2.trans hfield.symm
  · have hmethod := (method_searchIn hlawful hv' (hid ▸ hd) name params trivial (hany params)
      (henough e.id) hv).2
    rw [hid] at hmethod
    exact (method_searchIn hlawful hu' hd name params trivial (hany params)
      (henough d.id) hu).2.trans hmethod.symm
  · have hconstructor := (constructor_searchIn hlawful hv' (hid ▸ hd) params (hany params)
      (henough e.id) hv).2
    rw [hid] at hconstructor
    exact (constructor_searchIn hlawful hu' hd params (hany params) (henough d.id) hu).2.trans
      hconstructor.symm
  · exact (fieldType_sketch hu' type hu).2.trans (fieldType_sketch hv' type hv).2.symm
  · exact (referenceType_sketch hlawful.steady hu' hscope halike (fun _ _ => trivial) hu).2.trans
      (referenceType_sketch hlawful.steady hv' hother (fun _ => rfl) (fun _ _ => trivial)
        hv).2.symm

/-- A table to which each change was told answers as a new one does over the artifacts of now,
whatever that one was asked before. -/
theorem answersAlike_fresh (hlawful : source.Lawful) {fresh : List (Call φ)}
    (hfed : (start s₀).Fed source calls)
    (hreported : (start s₀).Reported source (fun _ => False) calls)
    (hfresh : (start ((start s₀).run source calls).table.finder).Fed source fresh)
    (hlookups : ∀ call ∈ fresh, call.isLookup) :
    let u := (start s₀).run source calls
    AnswersAlike source u ((start u.table.finder).run source fresh) := by
  intro u
  refine answersAlike_of_view_eq hlawful (sound_run hfed) (sound_run hfresh) fun binary hb => ?_
  have hstart (s : φ) (binary : String) : (start s).table.Current source binary :=
    fun known hknown => by cases hknown
  have hcurrent : u.table.Current source binary :=
    current_run hlawful.steady (Sound.start trivial) hfed hreported (fun b _ _ => hstart s₀ b) hb
  rw [view_run hlawful.steady (Sound.start trivial) hfresh hlookups, hcurrent.view_eq,
    (hstart u.table.finder binary).view_eq]
  rfl

/-- A nested type that was loaded is deleted, and evicted with the type around it. -/
theorem nested_eviction_in_store :
    let store := ArtifactStore.ofTypes ["A", "A$B"]
    let changed := ArtifactStore.ofTypes ["A"]
    let u := (start store).run ArtifactStore.finder [.type "A$B", .change changed, .evict "A"]
    AnswersAlike ArtifactStore.finder u
      ((start u.table.finder).run ArtifactStore.finder [.type "A"]) := by
  intro store changed
  have hkeys : ((start store).next ArtifactStore.finder (.type "A$B")).table.finder.artifacts.keys =
      ["A", "A$B"] := by
    simp only [store]
    cbv
  have htold {b : String} (hb : Name.Dotted b) (hmem : Name.toInternal b ∈ ["A", "A$B"]) :
      Name.isSelfOrNested "A" b := by
    have hspelled : Name.toInternal "A" = "A" ∧ Name.toInternal "A$B" = "A$B" := by decide +kernel
    have hnested : Name.isSelfOrNested "A" "A" ∧ Name.isSelfOrNested "A" "A$B" := by decide +kernel
    rcases List.mem_pair.mp hmem with h | h
    · obtain rfl := Name.toInternal_injective hb (by simp [Name.Dotted]) (h.trans hspelled.1.symm)
      exact hnested.1
    · obtain rfl := Name.toInternal_injective hb (by simp [Name.Dotted]) (h.trans hspelled.2.symm)
      exact hnested.2
  refine answersAlike_fresh ArtifactStore.finder_lawful ?_ ?_ ?_ (by simp [Call.isLookup])
  · simp [Fed, Call.operands]
  · refine ⟨fun _ _ h => h, fun h => (by cases h), fun h => (by cases h), ?_⟩
    rintro b ⟨hstale, hkept⟩
    obtain ⟨hdotted, hchanged⟩ := hstale.resolve_left id
    have hnot : Name.toInternal b ∉ ["A", "A$B"] := fun hmem => hkept (htold hdotted hmem)
    refine hchanged ?_
    rw [ArtifactStore.find_of_not_mem, ArtifactStore.find_of_not_mem]
    · rwa [hkeys]
    · rw [ArtifactStore.mem_keys_ofTypes]
      simp_all
  · simp [Fed, Call.operands]

end Table.InUse

end Rebuild
