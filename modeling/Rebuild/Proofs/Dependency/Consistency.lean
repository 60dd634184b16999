import Mathlib
import Rebuild.Proofs.Dependency.Edges

/-! What holds of a cache after any calls. Main statement: a file is among the dependents of another
if and only if the other is among its dependencies, and no file depends on itself. -/
namespace Rebuild.Dependency
open Ascending (IsSet)

namespace Cache

variable {φ τ ω : Type}

/-- A cache without records. -/
def new (table : Table φ) (systemPrefixes : List String) : Cache φ τ := { table, systemPrefixes }

/-- What is asked of a cache. The files, artifacts and source maps are any, and the table is
shared with others, who may leave it in any state. -/
inductive Call (φ τ : Type) : Type 1 where
  | update {ω : Type} (source : Finder φ) (read : Path → Option (List UInt8))
      (sources : SourceMap ω) (file : FileId) (artifacts : List Path) (world : ω)
  | clearFile (file : FileId)
  | removeFile (file : FileId)
  | clear
  | markStale (file : FileId)
  | setTree (file : FileId) (tree : τ)
  | setTable (table : Table φ)

/-- What a call makes of a cache. -/
def after (c : Cache φ τ) : Call φ τ → Cache φ τ
  | .update source read sources file artifacts world =>
    (c.update source read sources file artifacts world).2.1
  | .clearFile file => c.clearFile file
  | .removeFile file => c.removeFile file
  | .clear => c.clear
  | .markStale file => c.markStale file
  | .setTree file tree => c.setTree file tree
  | .setTable table => { c with table }

/-- Calls one after the other. -/
def run (c : Cache φ τ) (calls : List (Call φ τ)) : Cache φ τ := calls.foldl after c

/-- Both ends of an edge know of it, no file depends on itself, and the sets are in order. -/
structure Consistent (c : Cache φ τ) : Prop where
  symmetric : ∀ a b, a ∈ c.dependents b ↔ b ∈ c.dependencies a
  irreflexive : ∀ a, a ∉ c.dependencies a
  dependencies_isSet : ∀ a, IsSet (c.dependencies a)
  dependents_isSet : ∀ a, IsSet (c.dependents a)
  shape_isSet : ∀ a, IsSet (c.record a).shape

theorem new_consistent (table : Table φ) (prefixes : List String) :
    (new table prefixes : Cache φ τ).Consistent := by
  constructor <;> intros <;> simp [new, dependents, dependencies, record, IsSet]

theorem shape_eq_of_bare {c d : Cache φ τ} {a : FileId}
    (h : (d.record a).bare = (c.record a).bare) : (d.record a).shape = (c.record a).shape := by
  have hshape : (d.record a).bare.shape = (c.record a).bare.shape := by rw [h]
  exact hshape

theorem flags_of_bare {c : Cache φ τ} {a : FileId} {r : Record τ}
    (h : (c.record a).bare = r.bare) : c.isStale a = r.stale ∧ c.tree? a = r.tree := by
  have hstale : (c.record a).bare.stale = r.bare.stale := by rw [h]
  have htree : (c.record a).bare.tree = r.bare.tree := by rw [h]
  exact ⟨hstale, htree⟩

namespace Consistent

variable {c : Cache φ τ}

/-- A change of other data than edges, after which the shape is in order. -/
theorem modifyRecord (h : c.Consistent) (file : FileId) {f : Record τ → Record τ}
    (hto : ∀ r, (f r).dependencies = r.dependencies)
    (hfrom : ∀ r, (f r).dependents = r.dependents)
    (hshape : IsSet (f (c.record file)).shape) : (c.modifyRecord file f).Consistent := by
  refine ⟨fun a b => ?_, fun a => ?_, fun a => ?_, fun a => ?_, fun a => ?_⟩
  · rw [dependents_modifyRecord c file b hfrom, dependencies_modifyRecord c file a hto]
    exact h.symmetric a b
  · rw [dependencies_modifyRecord c file a hto]
    exact h.irreflexive a
  · rw [dependencies_modifyRecord c file a hto]
    exact h.dependencies_isSet a
  · rw [dependents_modifyRecord c file a hfrom]
    exact h.dependents_isSet a
  · rw [record_modifyRecord]
    split_ifs
    · exact hshape
    · exact h.shape_isSet a

theorem shape_of_bare (h : c.Consistent) {d : Cache φ τ} {a : FileId}
    (hd : (d.record a).bare = (c.record a).bare) : IsSet (d.record a).shape := by
  rw [shape_eq_of_bare hd]
  exact h.shape_isSet a

theorem link (h : c.Consistent) {source target : FileId} (hne : source ≠ target) :
    (c.link source target).Consistent := by
  refine ⟨fun a b => ?_, fun a => ?_, fun a => ?_, fun a => ?_, fun a => ?_⟩
  · rw [dependents_link, dependencies_link]
    have hab := h.symmetric a b
    split_ifs with hb ha ha <;> grind [Ascending.mem_insert]
  · rw [dependencies_link]
    split_ifs with ha
    · rw [Ascending.mem_insert]
      rintro (rfl | hm)
      · exact hne ha
      · exact h.irreflexive a (ha ▸ hm)
    · exact h.irreflexive a
  · rw [dependencies_link]
    split_ifs
    · exact (h.dependencies_isSet source).insert target
    · exact h.dependencies_isSet a
  · rw [dependents_link]
    split_ifs
    · exact (h.dependents_isSet target).insert source
    · exact h.dependents_isSet a
  · exact h.shape_of_bare (bare_link c source target a)

theorem unlink (h : c.Consistent) (source target : FileId) :
    (c.unlink source target).Consistent := by
  refine ⟨fun a b => ?_, fun a => ?_, fun a => ?_, fun a => ?_, fun a => ?_⟩
  · rw [dependents_unlink, dependencies_unlink]
    have hab := h.symmetric a b
    split_ifs with hb ha ha <;> grind [Ascending.mem_erase]
  · rw [dependencies_unlink]
    split_ifs with ha
    · intro hm
      exact h.irreflexive a (ha ▸ (Ascending.mem_erase.mp hm).1)
    · exact h.irreflexive a
  · rw [dependencies_unlink]
    split_ifs
    · exact (h.dependencies_isSet source).erase target
    · exact h.dependencies_isSet a
  · rw [dependents_unlink]
    split_ifs
    · exact (h.dependents_isSet target).erase source
    · exact h.dependents_isSet a
  · exact h.shape_of_bare (bare_unlink c source target a)

theorem unlinkAll (h : c.Consistent) (edges : List (FileId × FileId)) :
    (c.unlinkAll edges).Consistent :=
  unlinkAll_induction edges h fun _ e _ hd => hd.unlink e.1 e.2

theorem relink (h : c.Consistent) {file : FileId} {targets : FileSet} (hself : file ∉ targets) :
    (c.relink file targets).Consistent := by
  refine unlinkAll (linkAll_induction _ h fun d e he hd => hd.link ?_) _
  obtain ⟨target, ht, rfl⟩ := List.mem_map.mp he
  intro heq
  change file = target at heq
  exact hself (heq ▸ (Ascending.mem_difference.mp ht).1)

/-! ## The calls -/

theorem markStale (h : c.Consistent) (file : FileId) : (c.markStale file).Consistent := by
  unfold Cache.markStale
  refine h.modifyRecord file ?_ ?_ (h.shape_isSet file) <;> exact fun _ => rfl

theorem setTree (h : c.Consistent) (file : FileId) (tree : τ) :
    (c.setTree file tree).Consistent := by
  unfold Cache.setTree
  refine h.modifyRecord file ?_ ?_ (h.shape_isSet file) <;> exact fun _ => rfl

theorem clearFile (h : c.Consistent) (file : FileId) : (c.clearFile file).Consistent := by
  unfold Cache.clearFile
  split
  · exact h
  · have hcleared := h.modifyRecord file (f := Record.cleared) (fun _ => rfl) (fun _ => rfl) .nil
    exact (hcleared.unlinkAll _).unlinkAll _

end Consistent

variable {c : Cache φ τ}

/-- A cleared file has no edges. -/
theorem clearFile_no_edges (c : Cache φ τ) (file g : FileId) :
    g ∉ (c.clearFile file).dependencies file ∧ g ∉ (c.clearFile file).dependents file := by
  unfold clearFile
  split
  next hr => simp [dependencies, dependents, record, hr]
  next r hr =>
    have hrecord : c.record file = r := by simp [record, hr]
    simp only [mem_dependencies_unlinkAll, mem_dependents_unlinkAll]
    simp only [dependencies, dependents, record_modifyRecord, ↓reduceIte, hrecord, Record.cleared,
      List.mem_map, Prod.mk.injEq]
    grind

theorem record_removeFile (c : Cache φ τ) (file g : FileId) :
    (c.removeFile file).record g = if file = g then {} else (c.clearFile file).record g := by
  simp only [removeFile, record, Dict.get?_erase]
  split_ifs <;> rfl

/-- Once a file has no edges, its record can go: no other record names it. -/
theorem mem_edges_removeFile (c : Cache φ τ) (file a b : FileId) :
    (b ∈ (c.removeFile file).dependencies a ↔ b ∈ (c.clearFile file).dependencies a) ∧
      (b ∈ (c.removeFile file).dependents a ↔ b ∈ (c.clearFile file).dependents a) := by
  obtain ⟨hto, hfrom⟩ := clearFile_no_edges c file b
  simp only [dependencies, dependents] at hto hfrom ⊢
  rw [record_removeFile]
  split_ifs with ha
  · subst ha; simp [hto, hfrom]
  · exact ⟨Iff.rfl, Iff.rfl⟩

/-- Removing a file makes no file depend on another. -/
theorem of_mem_dependencies_removeFile {file a b : FileId}
    (h : b ∈ (c.removeFile file).dependencies a) : b ∈ c.dependencies a := by
  rw [(mem_edges_removeFile c file a b).1] at h
  unfold clearFile at h
  split at h
  next => exact h
  next r hr =>
    rw [mem_dependencies_unlinkAll, mem_dependencies_unlinkAll] at h
    have hsame := dependencies_modifyRecord c file a (f := Record.cleared) fun _ => rfl
    exact hsame ▸ h.1.1

namespace Consistent

theorem removeFile (h : c.Consistent) (file : FileId) : (c.removeFile file).Consistent := by
  have hc := h.clearFile file
  -- The new record of the file is empty, and the others are those after clearing.
  have hset {s : Record τ → List FileId} (hs : s {} = []) (a : FileId)
      (hc : IsSet (s ((c.clearFile file).record a))) :
      IsSet (s ((c.removeFile file).record a)) := by
    rw [record_removeFile]
    split_ifs
    · rw [hs]; exact .nil
    · exact hc
  refine ⟨fun a b => ?_, fun a => ?_, fun a => ?_, fun a => ?_, fun a => ?_⟩
  · rw [(mem_edges_removeFile c file b a).2, (mem_edges_removeFile c file a b).1]
    exact hc.symmetric a b
  · rw [(mem_edges_removeFile c file a a).1]
    exact hc.irreflexive a
  · exact hset rfl a (hc.dependencies_isSet a)
  · exact hset rfl a (hc.dependents_isSet a)
  · rw [record_removeFile]
    split_ifs
    · exact .nil
    · exact hc.shape_isSet a

theorem absorb (h : c.Consistent) {file : FileId} {found : Findings} {targets : FileSet}
    (hself : file ∉ targets) (hshape : IsSet found.shape) :
    (c.absorb file found targets).2.Consistent := by
  have hrecord := h.modifyRecord file (f := fun r => r.compiled found) (fun _ => rfl)
    (fun _ => rfl) hshape
  exact hrecord.relink hself

end Consistent

/-! ## Updates -/

/-- What the artifacts of a file tell, read with the table of a cache. -/
def findings (source : Finder φ) (read : Path → Option (List UInt8)) (artifacts : List Path)
    (c : Cache φ τ) : Findings := ((survey source read artifacts).run c.table).1

/-- The files that an update finds for the types that the artifacts refer to. -/
def foundTargets (source : Finder φ) (read : Path → Option (List UInt8)) (sources : SourceMap ω)
    (file : FileId) (artifacts : List Path) (c : Cache φ τ) (w : ω) : FileSet :=
  ((targets sources file
    (rootTypes c.systemPrefixes (c.findings source read artifacts).referenced)).run w).1

theorem run_targets (sources : SourceMap ω) (file : FileId) (names : List String) (w : ω) :
    ((targets sources file names).run w).1 =
      Ascending.ofList (((targetsIn sources names).run w).1.filter (· ≠ file)) := by
  rw [targets, StateT.run_bind]
  rfl

theorem foundTargets_eq (source : Finder φ) (read : Path → Option (List UInt8))
    (sources : SourceMap ω) (file : FileId) (artifacts : List Path) (c : Cache φ τ) (w : ω) :
    c.foundTargets source read sources file artifacts w =
      Ascending.ofList (((targetsIn sources (rootTypes c.systemPrefixes
        (c.findings source read artifacts).referenced)).run w).1.filter (· ≠ file)) :=
  run_targets sources file _ w

/-- The shape that artifacts show is in order, whatever is found for their types. -/
theorem shape_findings (source : Finder φ) (read : Path → Option (List UInt8))
    (artifacts : List Path) (c : Cache φ τ) :
    (c.findings source read artifacts).shape = shape (loadArtifacts read artifacts) := by
  rw [findings, survey, StateT.run_bind]
  rfl

theorem update_eq (source : Finder φ) (read : Path → Option (List UInt8)) (sources : SourceMap ω)
    (file : FileId) (artifacts : List Path) (c : Cache φ τ) (w : ω) :
    ∃ table,
      (c.update source read sources file artifacts w).1 =
        (({ c with table } : Cache φ τ).absorb file (c.findings source read artifacts)
          (c.foundTargets source read sources file artifacts w)).1 ∧
      (c.update source read sources file artifacts w).2.1 =
        (({ c with table } : Cache φ τ).absorb file (c.findings source read artifacts)
          (c.foundTargets source read sources file artifacts w)).2 := by
  rcases hfound : (survey source read artifacts).run c.table with ⟨found, table⟩
  rcases htargets : (targets sources file (rootTypes c.systemPrefixes found.referenced)).run w
    with ⟨files, w'⟩
  refine ⟨table, ?_, ?_⟩ <;> simp only [update, findings, foundTargets, hfound, htargets]

theorem not_mem_foundTargets (source : Finder φ) (read : Path → Option (List UInt8))
    (sources : SourceMap ω) (file : FileId) (artifacts : List Path) (c : Cache φ τ) (w : ω) :
    file ∉ c.foundTargets source read sources file artifacts w := by
  simp [foundTargets_eq]

/-- The table is no part of what consistency says. -/
theorem Consistent.withTable (h : c.Consistent) (table : Table φ) :
    ({ c with table } : Cache φ τ).Consistent :=
  ⟨h.symmetric, h.irreflexive, h.dependencies_isSet, h.dependents_isSet, h.shape_isSet⟩

theorem Consistent.update (h : c.Consistent) (source : Finder φ)
    (read : Path → Option (List UInt8)) (sources : SourceMap ω) (file : FileId)
    (artifacts : List Path) (w : ω) :
    (c.update source read sources file artifacts w).2.1.Consistent := by
  obtain ⟨table, -, hc⟩ := update_eq source read sources file artifacts c w
  rw [hc]
  apply (h.withTable table).absorb
  · exact not_mem_foundTargets source read sources file artifacts c w
  · rw [shape_findings]
    exact Ascending.isSet_ofList _

/-! ## Runs -/

theorem Consistent.after (h : c.Consistent) (call : Call φ τ) : (c.after call).Consistent := by
  cases call with
  | update source read sources file artifacts world =>
    exact h.update source read sources file artifacts world
  | clearFile file => exact h.clearFile file
  | removeFile file => exact h.removeFile file
  | clear => exact new_consistent c.table c.systemPrefixes
  | markStale file => exact h.markStale file
  | setTree file tree => exact h.setTree file tree
  | setTable table => exact h.withTable table

theorem run_consistent (table : Table φ) (prefixes : List String) (calls : List (Call φ τ)) :
    ((new table prefixes : Cache φ τ).run calls).Consistent := by
  have hrun (c : Cache φ τ) (h : c.Consistent) : (c.run calls).Consistent := by
    induction calls generalizing c with
    | nil => exact h
    | cons call rest ih => exact ih (c.after call) (h.after call)
  exact hrun _ (new_consistent table prefixes)

/-- After any calls, both ends know of each edge, and no edge leads from a file to itself. -/
theorem run_edges_symmetric (table : Table φ) (prefixes : List String)
    (calls : List (Call φ τ)) :
    let c : Cache φ τ := (new table prefixes).run calls
    (∀ a b, a ∈ c.dependents b ↔ b ∈ c.dependencies a) ∧
      ∀ a, a ∉ c.dependencies a ∧ a ∉ c.dependents a := by
  intro c
  have hc : c.Consistent := run_consistent table prefixes calls
  refine ⟨hc.symmetric, fun a => ⟨hc.irreflexive a, fun h => ?_⟩⟩
  exact hc.irreflexive a ((hc.symmetric a a).mp h)

end Cache

end Rebuild.Dependency
