import Mathlib
import Rebuild.Proofs.Build.Removal

/-! What the removal of a file changes, and what it leaves alone. Main statement: whatever happened
to a session, a removal reports the files that depended on the file and queues them again; the
queue, the edges and the diagnostics of the other files are as before. -/
namespace Rebuild

open Ascending (IsSet)

/-! ## Edges -/

namespace Dependency.Cache

variable {φ τ : Type} {c : Cache φ τ} {file a : FileId}

theorem mem_dependencies_removeFile (h : c.Consistent) (ha : a ≠ file) (b : FileId) :
    b ∈ (c.removeFile file).dependencies a ↔ b ∈ c.dependencies a ∧ b ≠ file := by
  rw [(mem_edges_removeFile c file a b).1]
  unfold clearFile
  split
  next hnone =>
    have hunknown : Unknown file c := hnone
    refine ⟨fun hb => ⟨hb, ?_⟩, And.left⟩
    rintro rfl
    exact (hunknown.no_edges h a).2.2.1 hb
  next r hr =>
    have hrecord : c.record file = r := by simp [record, hr]
    have hsame : (c.modifyRecord file Record.cleared).dependencies a = c.dependencies a :=
      dependencies_modifyRecord c file a fun _ => rfl
    have hsource : (a, b) ∈ r.dependents.map (fun source => (source, file)) ↔
        b = file ∧ file ∈ c.dependencies a := by
      rw [← h.symmetric a file, dependents, hrecord]
      simp [and_comm, eq_comm]
    have htarget : (a, b) ∉ r.dependencies.map (fun target => (file, target)) := by
      simp [Ne.symm ha]
    rw [mem_dependencies_unlinkAll, mem_dependencies_unlinkAll, hsame, hsource]
    constructor
    · rintro ⟨⟨hb, -⟩, hne⟩
      exact ⟨hb, fun heq => hne ⟨heq, heq ▸ hb⟩⟩
    · rintro ⟨hb, hne⟩
      exact ⟨⟨hb, htarget⟩, fun hedge => hne hedge.1⟩

/-- The other files lose their edges to and from a removed file, and no others. -/
theorem edges_removeFile (h : c.Consistent) (ha : a ≠ file) :
    (c.removeFile file).dependencies a = Ascending.erase file (c.dependencies a) ∧
      (c.removeFile file).dependents a = Ascending.erase file (c.dependents a) := by
  have hremoved := h.removeFile file
  refine ⟨(hremoved.dependencies_isSet a).ext ((h.dependencies_isSet a).erase file) fun b => ?_,
    (hremoved.dependents_isSet a).ext ((h.dependents_isSet a).erase file) fun b => ?_⟩
  · rw [mem_dependencies_removeFile h ha, Ascending.mem_erase]
  · rw [hremoved.symmetric, Ascending.mem_erase, h.symmetric]
    by_cases hb : b = file
    · have hnone := (clearFile_no_edges c file a).1
      rw [hb, (mem_edges_removeFile c file file a).1]
      simp [hnone]
    · rw [mem_dependencies_removeFile h hb]
      simp [ha, hb]

end Dependency.Cache

namespace Build

variable {σ τ : Type}

/-! ## Sessions -/

theorem consistent_take_history (tree : FileTree) (workspace : Workspace) (table : Table Classpath)
    (systemPrefixes : List String) (options : Options) (commands : List (Command σ τ)) (n : Nat) :
    let start : Session τ := Session.new tree workspace table systemPrefixes options
    (lastSession start ((history start commands).take n)).cache.Consistent := by
  intro start
  obtain ⟨q, hchain⟩ := history_chain start commands
  rw [← List.take_append_drop n (history start commands)] at hchain
  obtain ⟨middle, u, hfirst, -⟩ := hchain.split
  have hsound : Sound middle u := (new_sound ..).chain hfirst
  rw [hfirst.lastSession_eq]
  exact hsound.consistent

namespace Session

variable {s : Session τ} {g : FileId}

theorem not_mem_dependents_self (h : s.cache.Consistent) (file : FileId) :
    file ∉ s.cache.dependents file := by
  rw [h.symmetric]
  exact h.irreflexive file

theorem state?_removeFile_of_mem (p : Path) (hg : g ∈ s.cache.dependents (s.register p).1) :
    ∃ state, (s.removeFile p).2.queue.state? g = some state ∧ state ≠ .failed := by
  rw [(s.removeFile_eq p).2.2.1, Queue.state?_enqueueAll_of_mem _ hg]
  refine ⟨_, rfl, ?_⟩
  rcases (s.queue.remove (s.register p).1).state? g with _ | state
  · simp
  · cases state <;> simp [EntryState.restart]

theorem state?_removeFile_of_not_mem (p : Path) (hg : g ∉ s.cache.dependents (s.register p).1) :
    (s.removeFile p).2.queue.state? g =
      if (s.register p).1 = g then none else s.queue.state? g := by
  rw [(s.removeFile_eq p).2.2.1, Queue.state?_enqueueAll_of_not_mem hg, Queue.state?_remove]

theorem files_removeFile (h : s.cache.Consistent) (p : Path) :
    (s.removeFile p).2.queue.files = s.queue.files.filter (· ≠ (s.register p).1) ++
      (s.cache.dependents (s.register p).1).filter (· ∉ s.queue.files) := by
  have hnodup : (s.cache.dependents (s.register p).1).Nodup :=
    (h.dependents_isSet _).imp Nat.ne_of_lt
  rw [(s.removeFile_eq p).2.2.1, Queue.files_enqueueAll _ hnodup, Queue.files_remove]
  congr 1
  refine List.filter_congr fun g hg => ?_
  have hne : g ≠ (s.register p).1 := by
    rintro rfl
    exact not_mem_dependents_self h _ hg
  simp only [List.mem_filter, hne, ne_eq, not_false_eq_true, decide_true, and_true]

theorem edges_removeFile (h : s.cache.Consistent) (p : Path) (hg : g ≠ (s.register p).1) :
    (s.removeFile p).2.cache.dependencies g =
        (s.cache.dependencies g).filter (· ≠ (s.register p).1) ∧
      (s.removeFile p).2.cache.dependents g =
        (s.cache.dependents g).filter (· ≠ (s.register p).1) := by
  obtain ⟨-, -, -, table, hcache⟩ := s.removeFile_eq p
  rw [hcache]
  exact Dependency.Cache.edges_removeFile (h.withTable table) hg

theorem no_edges_removeFile (p : Path) :
    (s.removeFile p).2.cache.dependencies (s.register p).1 = [] ∧
      (s.removeFile p).2.cache.dependents (s.register p).1 = [] := by
  obtain ⟨-, -, -, table, hcache⟩ := s.removeFile_eq p
  rw [hcache]
  simp [Dependency.Cache.dependencies, Dependency.Cache.dependents,
    Dependency.Cache.record_removeFile]

end Session

/-- Whatever has happened so far, the removal of a file reports the files that depended on it. It
leaves nothing of the file: no place in the queue, no record, no edges, no diagnostics. The files
that depended on it are queued, and none of them stands as failed. All others keep their states, the
queue keeps its order, and files that were not queued come last, in ascending order. The edges of
the other files are as before but for those to the removed file, and so are their diagnostics. -/
theorem removal_effects (tree : FileTree) (workspace : Workspace) (table : Table Classpath)
    (systemPrefixes : List String) (options : Options) (commands : List (Command σ τ)) (n : Nat)
    (p : Path) :
    let start : Session τ := Session.new tree workspace table systemPrefixes options
    let s := lastSession start ((history start commands).take n)
    let file := (s.register p).1
    let dependents := s.cache.dependents file
    let t := (s.removeFile p).2
    (s.removeFile p).1 = dependents ∧
      (t.queue.state? file = none ∧ t.cache.records.get? file = none ∧
        t.cache.dependencies file = [] ∧ t.cache.dependents file = [] ∧
        t.diagnostics.get? file = none) ∧
      (∀ g ∈ dependents, ∃ state, t.queue.state? g = some state ∧ state ≠ .failed) ∧
      (∀ g, g ≠ file → g ∉ dependents → t.queue.state? g = s.queue.state? g) ∧
      (t.queue.files = s.queue.files.filter (· ≠ file) ++
        dependents.filter (· ∉ s.queue.files) ∧ dependents.Pairwise (· < ·)) ∧
      (∀ g, g ≠ file → t.cache.dependencies g = (s.cache.dependencies g).filter (· ≠ file) ∧
        t.cache.dependents g = (s.cache.dependents g).filter (· ≠ file)) ∧
      ∀ g, g ≠ file → t.diagnostics.get? g = s.diagnostics.get? g := by
  intro start s file dependents t
  have hconsistent : s.cache.Consistent :=
    consistent_take_history tree workspace table systemPrefixes options commands n
  have hself : file ∉ dependents := s.not_mem_dependents_self hconsistent file
  have hforgets : t.Forgets file := .of_removeFile hconsistent p
  obtain ⟨hto, hfrom⟩ := s.no_edges_removeFile p
  have hdiagnostics (g : FileId) : t.diagnostics.get? g =
      if file = g then none else s.diagnostics.get? g := by
    rw [Session.diagnostics_removeFile, Dict.get?_erase]
  refine ⟨(s.removeFile_eq p).1, ⟨?_, hforgets.unknown, hto, hfrom, ?_⟩,
    fun g hg => s.state?_removeFile_of_mem p hg, fun g hne hg => ?_,
    ⟨s.files_removeFile hconsistent p, hconsistent.dependents_isSet file⟩,
    fun g hne => s.edges_removeFile hconsistent p hne, fun g hne => ?_⟩
  · rw [s.state?_removeFile_of_not_mem p hself, if_pos rfl]
  · rw [hdiagnostics, if_pos rfl]
  · rw [s.state?_removeFile_of_not_mem p hg, if_neg (Ne.symm hne)]
  · rw [hdiagnostics, if_neg (Ne.symm hne)]

end Build

end Rebuild
