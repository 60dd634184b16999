import Mathlib
import Rebuild.Proofs.Declaration.Calls
import Rebuild.Proofs.Declaration.Stores

/-! Identifiers and declarations. Main statement: as long as a table is not told to forget its
declarations, an identifier once bound keeps its declaration, and each answer is the declaration
bound to its identifier, an array that its component remembers included. -/
namespace Rebuild

variable {φ : Type}

/-- All names are in this vocabulary, whatever can be found. -/
theorem Vocabulary.all_covers (source : Finder φ) : all.Covers source fun _ => True :=
  ⟨fun _ _ _ => trivial, fun _ _ _ _ => trivial, fun _ _ _ _ => trivial⟩

/-- The setting that asks nothing of names. -/
def Setting.any (source : Finder φ) : Setting φ :=
  ⟨source, fun _ => True, .all, Vocabulary.all_covers source, fun _ => False⟩

namespace Table

theorem Request.named_all (request : Request) : request.Named .all := by
  cases request with
  | member owner name descriptor => exact ⟨.inr trivial, fun _ _ _ _ _ _ => trivial⟩
  | _ => simp [Named, Vocabulary.all, ReferenceType.Within]

theorem Call.named_all (call : Call φ) : call.Named .all fun _ => True := by
  cases call with
  | valueType scope type =>
    cases type <;> simp [Named, Vocabulary.all, ReferenceType.Within]
  | resolve request => exact request.named_all
  | _ => simp [Named, Vocabulary.all, ReferenceType.Within, FieldType.Within]

namespace InUse

open Setting

variable {source : Finder φ} {u : InUse φ} {call : Call φ} {calls : List (Call φ)}
  {d : Declaration} {id : String} {s₀ : φ}

/-- A run without demands on names leaves a coherent table. -/
theorem sound_run (hfed : (start s₀).Fed source calls) :
    (Setting.any source).Sound ((start s₀).run source calls) :=
  (Sound.start trivial).run (fun call _ => call.named_all) hfed

theorem get?_next (hu : (Setting.any source).Sound u) (hfed : ∀ d ∈ call.operands, u.Has d)
    (hkept : call ≠ .invalidate) (hd : u.table.get? id = some d) :
    (u.next source call).table.get? id = some d := by
  by_cases hlookup : call.isLookup
  · exact (hu.lookup hlookup call.named_all hfed).1.get?_of_get? hd
  · cases call with
    | invalidate => exact absurd rfl hkept
    | evict binary => exact hd
    | change finder => exact hd
    | _ => exact absurd rfl hlookup

theorem get?_run (hu : (Setting.any source).Sound u) (hfed : u.Fed source calls)
    (hkept : Call.invalidate ∉ calls) (hd : u.table.get? id = some d) :
    (u.run source calls).table.get? id = some d := by
  induction calls generalizing u with
  | nil => exact hd
  | cons call rest ih =>
    rw [List.mem_cons, not_or] at hkept
    exact ih (hu.next call.named_all hfed.1).1 hfed.2 hkept.2
      (get?_next hu hfed.1 (Ne.symm hkept.1) hd)

/-- Without forgetting, the table still has all that it ever had. -/
theorem get?_of_has_run (hu : (Setting.any source).Sound u) (hfed : u.Fed source calls)
    (hkept : Call.invalidate ∉ calls) (hhad : ∀ d, u.Has d → u.table.get? d.id = some d)
    (hd : (u.run source calls).Has d) : (u.run source calls).table.get? d.id = some d := by
  induction calls generalizing u with
  | nil => exact hhad d hd
  | cons call rest ih =>
    rw [List.mem_cons, not_or] at hkept
    refine ih (hu.next call.named_all hfed.1).1 hfed.2 hkept.2 (fun e he => ?_) hd
    exact he.elim (fun he => get?_next hu hfed.1 (Ne.symm hkept.1) (hhad e he)) fun he => he

/-- As long as a table is not invalidated, an identifier keeps the declaration that it was bound to,
and that declaration is what each call answers, also for the array that a component remembers. -/
theorem answers_canonical {before after : List (Call φ)}
    (hfed : (start s₀).Fed source (before ++ call :: after))
    (hkept : Call.invalidate ∉ before ++ call :: after) :
    let u := (start s₀).run source before
    let u' := u.next source call
    (∀ id d, u.table.get? id = some d →
      d.id = id ∧ (u'.run source after).table.get? id = some d) ∧
    (∀ d, u.answer source call = some d → u'.table.get? d.id = some d) ∧
    ∀ c a, u.table.get? c.id = some c → u.table.arrayOf? c = some a →
      u.table.get? (c.id ++ "[]") = some a := by
  intro u u'
  obtain ⟨hbefore, hcall, hafter⟩ := fed_append.mp hfed
  simp only [List.mem_append, List.mem_cons, not_or] at hkept
  have hu : (Setting.any source).Sound u := sound_run hbefore
  have hbound {d : Declaration} (hd : u.Has d) : u.table.get? d.id = some d :=
    get?_of_has_run (Sound.start trivial) hbefore hkept.1
      (fun d hd => hd.elim False.elim fun h => h) hd
  obtain ⟨hu', hanswer⟩ := hu.next call.named_all hcall
  refine ⟨fun id d hd => ⟨hu.id_eq hd, ?_⟩, fun d hd => ?_, fun c a hc ha => ?_⟩
  · exact get?_run hu' hafter hkept.2.2 (get?_next hu hcall (Ne.symm hkept.2.1) hd)
  · obtain ⟨kind, -, hanswers⟩ := hanswer d hd
    exact hanswers.known.elim (fun h => get?_next hu hcall (Ne.symm hkept.2.1) (hbound h))
      fun h => h
  · obtain ⟨hknown, hid⟩ := hu.arrayOf?_id (.inr hc) ha
    exact hid ▸ hbound hknown

/-- The array of a type is made once, and the type remembers it when its artifact is forgotten. -/
theorem array_canonical_in_store :
    let store := ArtifactStore.ofTypes ["A"]
    let unnamed : Declaration :=
      { serial := 0, id := "", kind := .package, name := "", owner := none }
    let a : Declaration :=
      { serial := 1, id := "A", kind := .type, name := "A", owner := some unnamed, modifiers := 0x21 }
    let u := (start store).run ArtifactStore.finder [.type "A", .array a]
    let u' := u.next ArtifactStore.finder (.array a)
    (∀ id d, u.table.get? id = some d →
      d.id = id ∧ (u'.run ArtifactStore.finder [.evict "A", .array a]).table.get? id = some d) ∧
    (∀ d, u.answer ArtifactStore.finder (.array a) = some d → u'.table.get? d.id = some d) ∧
    ∀ c e, u.table.get? c.id = some c → u.table.arrayOf? c = some e →
      u.table.get? (c.id ++ "[]") = some e := by
  intro store unnamed a
  have ha : ((start store).run ArtifactStore.finder [.type "A"]).table.get? "A" = some a := by
    simp only [store, a, unnamed]
    cbv
  have hfed : (start store).Fed ArtifactStore.finder
      [.type "A", .array a, .array a, .evict "A", .array a] :=
    ⟨by simp [Call.operands], by simpa [Call.operands] using .inr ha,
      by simpa [Call.operands] using .inl (.inr ha), by simp [Call.operands],
      by simpa [Call.operands] using .inl (.inl (.inl (.inr ha))), trivial⟩
  exact answers_canonical hfed (by simp)

end InUse

end Table

end Rebuild
