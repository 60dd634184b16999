import Mathlib
import Rebuild.Proofs.Declaration.Calls
import Rebuild.Proofs.Declaration.Stores

/-! Kinds of answers. All kinds of declarations share the identifiers. Main statement: where the
names are clear, each answer is of the kind that its call stands for, and a type is answered
whenever its artifact is, whatever was asked before. A package with the name of a type hides it. -/
namespace Rebuild.Table

open Artifact (ClassFile)
open Setting

variable {φ : Type}

namespace InUse

/-- Whatever was asked before, what a call answers is of the kind that the call stands for, and a
type is answered under its own name exactly if its artifact is known. -/
theorem answer_kind {V : Vocabulary} {source : Finder φ} {world : φ → Prop} {s₀ : φ}
    {calls : List (Call φ)} {call : Call φ} (hclear : V.Clear) (hcovers : V.Covers source world)
    (hs₀ : world s₀) (hnamed : ∀ c ∈ calls ++ [call], c.Named V world)
    (hfed : (start s₀).Fed source (calls ++ [call])) :
    let u := (start s₀).run source calls
    (∀ d, u.answer source call = some d → call.kind? = some d.kind) ∧
    ∀ binary, (u.answer source (.type binary)).map (fun d => (d.kind, d.id)) =
      ((classFile source binary).run u.table).1.map fun _ => (.type, binary) := by
  intro u
  let S : Setting φ := ⟨source, world, V, hcovers, fun _ => False⟩
  obtain ⟨hcalls, hcall, -⟩ := fed_append.mp hfed
  have hu : S.Sound u :=
    (Sound.start hs₀).run (fun c hc => hnamed c (List.mem_append_left _ hc)) hcalls
  constructor
  · intro d hd
    obtain ⟨hnext, hanswer⟩ := hu.next (hnamed call (by simp)) hcall
    obtain ⟨kind, hkind, hanswers⟩ := hanswer d hd
    rw [hkind, hanswers.kind_eq hclear hnext]
  · intro binary
    change ((type (S.of u).source binary).run u.table).1.map _ =
      ((classFile (S.of u).source binary).run u.table).1.map _
    obtain ⟨htype, hfile⟩ | ⟨d, c, htype, hfile, hanswers, rfl⟩ := type_cases hu binary
    · rw [htype, hfile, Option.map_none, Option.map_none]
    · have hafter := hu.steps (type_yields d.id hu).1
      rw [htype, hfile, Option.map_some, Option.map_some, hanswers.kind_eq hclear hafter]

/-- The type of a store, its package and an array of it. -/
theorem array_kind_of_store :
    let store := ArtifactStore.ofTypes ["A"]
    let unnamed : Declaration :=
      { serial := 0, id := "", kind := .package, name := "", owner := none }
    let a : Declaration :=
      { serial := 1, id := "A", kind := .type, name := "A", owner := some unnamed, modifiers := 0x21 }
    let u := (start store).run ArtifactStore.finder [.type "A", .package "p"]
    (∀ d, u.answer ArtifactStore.finder (.array a) = some d → some .array = some d.kind) ∧
    ∀ binary, (u.answer ArtifactStore.finder (.type binary)).map (fun d => (d.kind, d.id)) =
      ((classFile ArtifactStore.finder binary).run u.table).1.map fun _ => (.type, binary) := by
  intro store unnamed a
  have hordinary : store.Ordinary :=
    ArtifactStore.ordinary_ofTypes (by simp [Name.Plain, Name.marks]) (by simp) (by simp)
  refine answer_kind hordinary.clear hordinary.covers rfl ?_ ?_
  · have hpackages : packagesAround "p" = ["", "p"] := by decide +kernel
    have hinternal : Name.toInternal "" = "" ∧ Name.toInternal "p" = "p" := by decide +kernel
    simp [Call.Named, ArtifactStore.vocabulary, ArtifactStore.mem_keys_ofTypes, hpackages,
      Name.Plain, Name.marks, store, hinternal.1, hinternal.2]
  · have ha : ((start store).run ArtifactStore.finder [.type "A", .package "p"]).table.get? "A" =
        some a := by
      simp only [store, a, unnamed]
      cbv
    refine ⟨by simp [Call.operands], by simp [Call.operands], ?_, trivial⟩
    intro d hd
    obtain rfl : d = a := by simpa [Call.operands] using hd
    exact .inr ha

/-- A package that is known by the name of a type is answered in its place. -/
theorem package_hides_type :
    let store := ArtifactStore.ofTypes ["p/A", "p/A/B"]
    let shown := fun d : Declaration => (d.kind, d.id)
    ((start store).answer ArtifactStore.finder (.type "p.A")).map shown = some (.type, "p.A") ∧
      (((start store).run ArtifactStore.finder [.type "p.A.B"]).answer ArtifactStore.finder
        (.type "p.A")).map shown = some (.package, "p.A") := by
  decide +kernel

end InUse

end Rebuild.Table
