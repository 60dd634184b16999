import Mathlib
import Rebuild.Proofs.Dependency.Completeness

/-! Where the types that an artifact refers to come from. Main statement: each of them is named by
the artifact, in its constant pool, as a supertype or thrown type, in a descriptor or inside a
signature, even where a type has the name of a package. -/
namespace Rebuild

open Setting
open Artifact (ClassFile Member Reference)

variable {φ : Type}

namespace Vocabulary

/-- Names are plain; a type may have the name of a package. -/
structure Legible (V : Vocabulary) : Prop where
  word_plain : ∀ w, V.word w → Name.Plain w
  type_plain : ∀ b, V.type b → Name.Plain b
  package_plain : ∀ q, V.package q → Name.Plain q

end Vocabulary

variable {V : Vocabulary} {d e : Declaration}

namespace Spelled

end Spelled

/-! ## Types of sketches -/

section Sketches

variable {view : String → Option ClassFile} {p : String → Prop}

end Sketches

/-! ## Answers -/

/-- All types that some declarations are made from have identifiers with some property. -/
def MadeOf (p : String → Prop) (declarations : List Declaration) : Prop :=
  ∀ d ∈ declarations, ∀ id ∈ d.componentIds, p id

variable {S : Setting φ} {t : Table φ} {p : String → Prop}

theorem MadeOf.append {declarations more : List Declaration} (h : MadeOf p declarations)
    (h' : MadeOf p more) : MadeOf p (declarations ++ more) :=
  fun d hd => (List.mem_append.mp hd).elim (h d) (h' d)

section Answers

variable (hlegible : S.names.Legible)
include hlegible

variable (hsteady : S.source.Steady)
include hsteady

end Answers

namespace Artifact

/-- The artifact names a type: its constant pool, a descriptor or a signature mentions it, or it is
a supertype or a type that a method throws. -/
def ClassFile.Names (c : ClassFile) (internal : String) : Prop :=
  c.Mentions (fun _ => True) internal ∨ internal ∈ c.supertypes ∨
    ∃ m ∈ c.methods, internal ∈ m.thrown

end Artifact

namespace Dependency

section Extraction

variable (hlegible : S.names.Legible)
include hlegible

variable (hsteady : S.source.Steady) {scope : TypeScope}

include hsteady

end Extraction

/-! ## All that is found -/

end Dependency

end Rebuild
