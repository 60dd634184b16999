import Mathlib
import Rebuild.Dependency.Cache
import Rebuild.Proofs.Ascending

/-! Edges between files, whatever was asked of the cache before. Each edge is recorded at both
ends, and no file depends on itself. -/
namespace Rebuild.Dependency
open Ascending (IsSet)

/-- A record without its edges. -/
def Record.bare {τ : Type} (r : Record τ) : Record τ :=
  { r with dependencies := [], dependents := [] }

namespace Cache

variable {φ τ ω : Type} {c : Cache φ τ}

/-! ## Single records and edges -/

theorem record_modifyRecord (c : Cache φ τ) (file g : FileId) (f : Record τ → Record τ) :
    (c.modifyRecord file f).record g = if file = g then f (c.record file) else c.record g := by
  simp only [record, modifyRecord, Dict.get?_put]
  split_ifs <;> rfl

theorem dependencies_modifyRecord (c : Cache φ τ) (file g : FileId) {f : Record τ → Record τ}
    (hf : ∀ r, (f r).dependencies = r.dependencies) :
    (c.modifyRecord file f).dependencies g = c.dependencies g := by
  simp only [dependencies, record_modifyRecord]
  split_ifs with h
  · subst h; exact hf _
  · rfl

theorem dependents_modifyRecord (c : Cache φ τ) (file g : FileId) {f : Record τ → Record τ}
    (hf : ∀ r, (f r).dependents = r.dependents) :
    (c.modifyRecord file f).dependents g = c.dependents g := by
  simp only [dependents, record_modifyRecord]
  split_ifs with h
  · subst h; exact hf _
  · rfl

theorem dependencies_link (c : Cache φ τ) (source target g : FileId) :
    (c.link source target).dependencies g =
      if source = g then Ascending.insert target (c.dependencies source)
      else c.dependencies g := by
  simp only [dependencies, link, record_modifyRecord]
  split_ifs <;> simp_all

theorem dependents_link (c : Cache φ τ) (source target g : FileId) :
    (c.link source target).dependents g =
      if target = g then Ascending.insert source (c.dependents target) else c.dependents g := by
  simp only [dependents, link, record_modifyRecord]
  split_ifs <;> simp_all

theorem dependencies_unlink (c : Cache φ τ) (source target g : FileId) :
    (c.unlink source target).dependencies g =
      if source = g then Ascending.erase target (c.dependencies source)
      else c.dependencies g := by
  simp only [dependencies, unlink, record_modifyRecord]
  split_ifs <;> simp_all

theorem dependents_unlink (c : Cache φ τ) (source target g : FileId) :
    (c.unlink source target).dependents g =
      if target = g then Ascending.erase source (c.dependents target) else c.dependents g := by
  simp only [dependents, unlink, record_modifyRecord]
  split_ifs <;> simp_all

theorem bare_link (c : Cache φ τ) (source target g : FileId) :
    ((c.link source target).record g).bare = (c.record g).bare := by
  simp only [link, record_modifyRecord]
  split_ifs <;> simp_all [Record.bare]

theorem bare_unlink (c : Cache φ τ) (source target g : FileId) :
    ((c.unlink source target).record g).bare = (c.record g).bare := by
  simp only [unlink, record_modifyRecord]
  split_ifs <;> simp_all [Record.bare]

/-! ## Many edges -/

theorem mem_dependencies_linkAll (edges : List (FileId × FileId)) {a b : FileId} :
    b ∈ (c.linkAll edges).dependencies a ↔ (a, b) ∈ edges ∨ b ∈ c.dependencies a := by
  induction edges generalizing c with
  | nil => simp [linkAll]
  | cons e rest ih =>
    change b ∈ ((c.link e.1 e.2).linkAll rest).dependencies a ↔ _
    rw [ih, dependencies_link, List.mem_cons, Prod.ext_iff]
    split_ifs with h
    · subst h; rw [Ascending.mem_insert]; tauto
    · tauto

theorem mem_dependents_linkAll (edges : List (FileId × FileId)) {a b : FileId} :
    a ∈ (c.linkAll edges).dependents b ↔ (a, b) ∈ edges ∨ a ∈ c.dependents b := by
  induction edges generalizing c with
  | nil => simp [linkAll]
  | cons e rest ih =>
    change a ∈ ((c.link e.1 e.2).linkAll rest).dependents b ↔ _
    rw [ih, dependents_link, List.mem_cons, Prod.ext_iff]
    split_ifs with h
    · subst h; rw [Ascending.mem_insert]; tauto
    · tauto

theorem mem_dependencies_unlinkAll (edges : List (FileId × FileId)) {a b : FileId} :
    b ∈ (c.unlinkAll edges).dependencies a ↔ b ∈ c.dependencies a ∧ (a, b) ∉ edges := by
  induction edges generalizing c with
  | nil => simp [unlinkAll]
  | cons e rest ih =>
    change b ∈ ((c.unlink e.1 e.2).unlinkAll rest).dependencies a ↔ _
    rw [ih, dependencies_unlink, List.mem_cons, Prod.ext_iff]
    split_ifs with h
    · subst h; rw [Ascending.mem_erase]; tauto
    · tauto

theorem mem_dependents_unlinkAll (edges : List (FileId × FileId)) {a b : FileId} :
    a ∈ (c.unlinkAll edges).dependents b ↔ a ∈ c.dependents b ∧ (a, b) ∉ edges := by
  induction edges generalizing c with
  | nil => simp [unlinkAll]
  | cons e rest ih =>
    change a ∈ ((c.unlink e.1 e.2).unlinkAll rest).dependents b ↔ _
    rw [ih, dependents_unlink, List.mem_cons, Prod.ext_iff]
    split_ifs with h
    · subst h; rw [Ascending.mem_erase]; tauto
    · tauto

/-- The edges are added and taken away one at a time, so what one of these changes keeps is kept. -/
theorem linkAll_induction {P : Cache φ τ → Prop} (edges : List (FileId × FileId)) (hc : P c)
    (h : ∀ c, ∀ e ∈ edges, P c → P (c.link e.1 e.2)) : P (c.linkAll edges) := by
  induction edges generalizing c with
  | nil => exact hc
  | cons e rest ih =>
    exact ih (h c e (by simp) hc) fun c e he => h c e (by simp [he])

theorem unlinkAll_induction {P : Cache φ τ → Prop} (edges : List (FileId × FileId)) (hc : P c)
    (h : ∀ c, ∀ e ∈ edges, P c → P (c.unlink e.1 e.2)) : P (c.unlinkAll edges) := by
  induction edges generalizing c with
  | nil => exact hc
  | cons e rest ih =>
    exact ih (h c e (by simp) hc) fun c e he => h c e (by simp [he])

/-! ## Relinking -/

theorem mem_dependencies_relink (c : Cache φ τ) (file : FileId) (targets : FileSet) {b : FileId} :
    b ∈ (c.relink file targets).dependencies file ↔ b ∈ targets := by
  simp only [relink, mem_dependencies_unlinkAll, mem_dependencies_linkAll, List.mem_map,
    Ascending.mem_difference, Prod.mk.injEq]
  grind

theorem dependencies_relink_of_ne (c : Cache φ τ) (targets : FileSet) {file g : FileId}
    (h : g ≠ file) : (c.relink file targets).dependencies g = c.dependencies g := by
  have hpair (files : List FileId) : ∀ e ∈ files.map fun target => (file, target), e.1 = file := by
    intro e he
    obtain ⟨target, -, rfl⟩ := List.mem_map.mp he
    rfl
  refine unlinkAll_induction (P := fun d => d.dependencies g = c.dependencies g) _ ?_ ?_
  · refine linkAll_induction (P := fun d => d.dependencies g = c.dependencies g) _ rfl ?_
    intro d e he hd
    rw [dependencies_link, hpair _ e he, if_neg (Ne.symm h), hd]
  · intro d e he hd
    rw [dependencies_unlink, hpair _ e he, if_neg (Ne.symm h), hd]

theorem mem_dependents_relink_of_ne (c : Cache φ τ) (targets : FileSet) {file a : FileId}
    (h : a ≠ file) (g : FileId) :
    a ∈ (c.relink file targets).dependents g ↔ a ∈ c.dependents g := by
  simp only [relink, mem_dependents_unlinkAll, mem_dependents_linkAll, List.mem_map,
    Prod.mk.injEq]
  grind

theorem bare_relink (c : Cache φ τ) (file : FileId) (targets : FileSet) (g : FileId) :
    ((c.relink file targets).record g).bare = (c.record g).bare := by
  refine unlinkAll_induction (P := fun d => (d.record g).bare = (c.record g).bare) _ ?_ ?_
  · refine linkAll_induction (P := fun d => (d.record g).bare = (c.record g).bare) _ rfl ?_
    intro d e _ hd
    rw [bare_link, hd]
  · intro d e _ hd
    rw [bare_unlink, hd]

end Cache

end Rebuild.Dependency
