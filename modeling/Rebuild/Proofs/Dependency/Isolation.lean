import Mathlib
import Rebuild.Proofs.Declaration.Repetition
import Rebuild.Proofs.Dependency.Provenance

/-! What a malformed member does to the others. Main statement: all types that an artifact refers to
are named by it; and without a member whose descriptor or signature is malformed, an artifact refers
to the same declarations, but for the types that the member throws. -/
namespace Rebuild

open Setting
open Artifact (ClassFile Member Reference)

variable {φ : Type}

/-! ## Malformed members -/

namespace Artifact.Member

end Artifact.Member

namespace Dependency

end Dependency

/-! ## Lookups with settled identifiers -/

variable {S : Setting φ} {t : Table φ} {view : String → Option ClassFile}

namespace Setting

/-- Whatever steps a table has taken, what is found are declarations of the table with these
identifiers. -/
def Settled (S : Setting φ) (t : Table φ) (m : TableM φ (List Declaration))
    (ids : List String) : Prop :=
  ∀ t', S.Steps t t' → S.Yields t' m fun l t'' =>
    (∀ d ∈ l, S.Known t'' d) ∧ l.map Declaration.id = ids

namespace Settled

variable {m m' : TableM φ (List Declaration)} {ids ids' : List String}

theorem nil : S.Settled t (pure []) [] := fun _ _ => .pure fun _ => ⟨by simp, rfl⟩

theorem append (h : S.Settled t m ids) (h' : S.Settled t m' ids') :
    S.Settled t (do
      let first ← m
      let others ← m'
      return first ++ others) (ids ++ ids') := by
  intro t₀ ht₀
  refine .bind (h t₀ ht₀) fun first t₁ hsteps₁ hfirst => ?_
  refine .bind (h' t₁ (ht₀.trans hsteps₁)) fun others t₂ hsteps₂ hothers => .pure fun _ => ?_
  refine ⟨fun d hd => ?_, by rw [List.map_append, hfirst.2, hothers.2]⟩
  exact (List.mem_append.mp hd).elim (fun hd => (hfirst.1 d hd).steps hsteps₂) (hothers.1 d)

end Settled

end Setting

namespace Dependency

section Sketches

variable (hsteady : S.source.Steady) (hview : S.Views t view)
include hsteady hview

variable {scope : TypeScope} {owner : String → Option Declaration} (hscope : S.InScope t scope)
  (hlike : ∀ name, (scope.owner? name).map Declaration.id = (owner name).map Declaration.id)
include hscope hlike

end Sketches

/-! ## Methods -/

section Methods

variable (hsteady : S.source.Steady) (hview : S.Views t view)
include hsteady hview

end Methods

section Methods

variable (hregular : S.source.Regular)
include hregular

end Methods

/-! ## Contributions -/

end Dependency

section Contributions

variable {V : Vocabulary} {d e : Declaration}

namespace Dependency

end Dependency

end Contributions

/-! ## References -/

namespace Dependency

end Dependency

end Rebuild
