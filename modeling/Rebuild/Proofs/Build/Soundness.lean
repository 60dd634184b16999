import Mathlib
import Rebuild.Proofs.Build.Effects
import Rebuild.Proofs.Build.Replay

/-! What holds of a session after any history. Main statement: queued files have numbers, and a file
that depends on another lies in a project, so that it can be compiled again. -/
namespace Rebuild.Build

variable {σ τ : Type}

structure Sound (p : Phase) (s : Session τ) : Prop where
  consistent : s.cache.Consistent
  numbered : ∀ file, s.queue.contains file → ∃ path, s.workspace.files.path? file = some path
  dependent : ∀ file g, g ∈ s.cache.dependencies file → s.workspace.InProject file
  compiling : ∀ request, p = .compiling request → s.workspace.InProject request.file

namespace Sound

variable {p q : Phase} {s t : Session τ} {m : Moment τ}

theorem dependent_inProject (h : Sound p s) {file g : FileId}
    (hfile : file ∈ s.cache.dependents g) : s.workspace.InProject file :=
  h.dependent file g ((h.consistent.symmetric file g).mp hfile)

/-- A step that queues only files with numbers and adds no dependencies. -/
theorem transfer (h : Sound p s) (hgrows : s.workspace.Grows t.workspace)
    (hqueue : ∀ file, t.queue.contains file → s.queue.contains file ∨
      ∃ path, t.workspace.files.path? file = some path)
    (hconsistent : t.cache.Consistent)
    (hdependencies : ∀ file g, g ∈ t.cache.dependencies file → g ∈ s.cache.dependencies file ∨
      t.workspace.InProject file)
    (hq : ∀ request, q = .compiling request → p = .compiling request ∨
      t.workspace.InProject request.file) : Sound q t := by
  refine ⟨hconsistent, fun file hfile => ?_, fun file g hg => ?_, fun request hrequest => ?_⟩
  · rcases hqueue file hfile with hold | hnew
    · obtain ⟨path, hpath⟩ := h.numbered file hold
      exact ⟨path, Workspace.FileRegistry.path?_of_prefix hgrows.paths hpath⟩
    · exact hnew
  · rcases hdependencies file g hg with hold | hnew
    · exact (h.dependent file g hold).grows hgrows
    · exact hnew
  · rcases hq request hrequest with hold | hnew
    · exact (h.compiling request hold).grows hgrows
    · exact hnew

/-- A step that changes neither the queue nor the cache. -/
theorem grow (h : Sound p s) (hgrows : s.workspace.Grows t.workspace) (hqueue : t.queue = s.queue)
    (hcache : t.cache = s.cache) : Sound p t := by
  refine h.transfer hgrows ?_ (hcache ▸ h.consistent) ?_ (fun _ hp => .inl hp)
  · exact fun file hfile => .inl (hqueue ▸ hfile)
  · exact fun file g hg => .inl (hcache ▸ hg)

/-! ## Events -/

theorem markDirty (h : Sound p s) (path : Path) : Sound p (s.markDirty path).2 := by
  have hgrows := s.markDirty_grows path
  have hid := s.id?_markDirty path
  refine h.transfer hgrows (fun file hfile => ?_) (h.consistent.markStale _) (fun file g hg => ?_)
    (fun _ hp => .inl hp)
  · rcases Queue.of_contains_enqueue hfile with rfl | hold
    · exact .inr (Workspace.FileRegistry.path?_of_id? hid)
    · exact .inl hold
  · have hsame : (s.markDirty path).2.cache.dependencies file = s.cache.dependencies file :=
      Dependency.Cache.dependencies_modifyRecord _ _ _ fun _ => rfl
    exact .inl (hsame ▸ hg)

theorem removeFile (h : Sound p s) (path : Path) : Sound p (s.removeFile path).2 := by
  obtain ⟨-, hworkspace, hqueue, table, hcache⟩ := s.removeFile_eq path
  have hgrows : s.workspace.Grows (s.removeFile path).2.workspace :=
    hworkspace ▸ s.register_grows path
  refine h.transfer hgrows (fun file hfile => ?_) ?_ (fun file g hg => ?_) (fun _ hp => .inl hp)
  · rw [hqueue] at hfile
    rcases Queue.of_contains_enqueueAll hfile with hdependent | hold
    · obtain ⟨path', hpath', -⟩ := (h.dependent_inProject hdependent).grows hgrows
      exact .inr ⟨path', hpath'⟩
    · exact .inl (Queue.of_contains_remove hold)
  · rw [hcache]
    exact (h.consistent.withTable table).removeFile _
  · rw [hcache] at hg
    have hold := Dependency.Cache.of_mem_dependencies_removeFile hg
    exact .inl hold

theorem apply (h : Sound p s) (e : Event) : Sound p (s.apply e) := by
  cases e with
  | markDirty path => exact h.markDirty path
  | markAllDirty => exact Session.markEach_induction h fun t path _ ht => ht.markDirty path
  | removeFile path => exact h.removeFile path
  | register path => exact h.grow (s.register_grows path) rfl rfl
  | _ => exact h.grow (Workspace.Grows.refl _) rfl rfl

/-! ## Steps -/

theorem settle {request : CompileRequest} (h : Sound (.compiling request) s)
    (output : CompileOutput) : Sound .building (s.settle request output) := by
  have hgrows := s.settle_grows request output
  have hproject := (h.compiling request rfl).grows hgrows
  have hconsistent : (s.settle request output).cache.Consistent := by
    rcases s.settle_world request output with ⟨-, hcache⟩ | ⟨-, hcache⟩
    · exact hcache ▸ h.consistent
    · exact hcache ▸ Session.learn_consistent _ _ h.consistent _ _
  -- only the compiled file gets dependencies, and it lies in a project
  have hdependencies (file g : FileId)
      (hg : g ∈ (s.settle request output).cache.dependencies file) :
      g ∈ s.cache.dependencies file ∨ (s.settle request output).workspace.InProject file := by
    by_cases hfile : file = request.file
    · exact .inr (hfile ▸ hproject)
    · rcases s.settle_world request output with ⟨-, hcache⟩ | ⟨-, hcache⟩
      · exact .inl (hcache ▸ hg)
      · rw [hcache, Session.learn_dependencies_of_ne _ _ _ _ _ hfile] at hg
        exact .inl hg
  refine h.transfer hgrows (fun file hfile => ?_) hconsistent hdependencies (by simp)
  rw [s.settle_queue request output] at hfile
  rcases Queue.of_contains_enqueueAll hfile with hqueued | hold
  · obtain ⟨-, hdependent⟩ := (s.mem_fanOut file request output).mp hqueued
    have hedge := (hconsistent.symmetric file request.file).mp hdependent
    obtain ⟨path, hpath, -⟩ : (s.settle request output).workspace.InProject file := by
      rcases hdependencies file request.file hedge with hold | hnew
      · exact (h.dependent file _ hold).grows hgrows
      · exact hnew
    exact .inr ⟨path, hpath⟩
  · exact .inl (Queue.of_contains_settled hold)

theorem work (h : Sound p m.before) (hm : Work p m q) : Sound q m.after := by
  cases hm with
  | @taken s file hdue =>
    refine h.transfer (Workspace.Grows.refl _) (fun g hg => .inl ?_) h.consistent
      (fun _ _ hg => .inl hg) (by simp)
    exact Queue.contains_setState _ ▸ hg
  | @dropped s file hnone =>
    exact h.transfer (Workspace.Grows.refl _) (fun g hg => .inl (Queue.of_contains_remove hg))
      h.consistent (fun _ _ hg => .inl hg) (by simp)
  | @called s t file request hsome =>
    obtain ⟨hfile, hproject, hgrows, hqueue, hcache⟩ := Session.request_eq_some hsome
    refine h.transfer hgrows (fun g hg => .inl (hqueue ▸ hg)) (hcache ▸ h.consistent)
      (fun _ _ hg => .inl (hcache ▸ hg)) ?_
    rintro _ ⟨⟩
    exact .inr (hfile ▸ hproject.grows hgrows)
  | event request s e => exact h.apply e
  | settled request s output => exact h.settle output

theorem step (h : Sound p m.before) (hm : Step p m q) : Sound q m.after := by
  cases hm with
  | work hm => exact h.work hm
  | event s e => exact h.apply e
  | started s cancelled =>
    refine h.transfer (Workspace.Grows.refl _) (fun g hg => .inl ?_) h.consistent
      (fun _ _ hg => .inl hg) (by simp)
    exact Queue.contains_resetFailed ▸ hg
  | finished s diagnostics interrupted lastBuild =>
    exact ⟨h.consistent, h.numbered, h.dependent, by simp⟩
  | failed hp s e => exact ⟨h.consistent, h.numbered, h.dependent, by simp⟩

theorem chain (h : Sound p s) {moments : List (Moment τ)} (hchain : Chain Step p s moments q t) :
    Sound q t :=
  hchain.invariant (I := fun _ p s => Sound p s) (fun hm h => h.step hm) [] h

end Sound

theorem new_sound (tree : FileTree) (workspace : Workspace) (table : Table Classpath)
    (systemPrefixes : List String) (options : Options) :
    Sound .idle (Session.new tree workspace table systemPrefixes options : Session τ) := by
  refine ⟨Dependency.Cache.new_consistent table systemPrefixes, fun file hfile => ?_,
    fun file g hg => ?_, by simp⟩
  · obtain ⟨state, hstate⟩ := (Queue.contains_iff _ _).mp hfile
    cases hstate
  · cases hg

/-- Whatever happened to a session, a build can start. -/
theorem after_sound (tree : FileTree) (workspace : Workspace) (table : Table Classpath)
    (systemPrefixes : List String) (options : Options) (commands : List (Command σ τ)) :
    Sound .idle ((Session.new tree workspace table systemPrefixes options).after commands) := by
  obtain ⟨q, hchain⟩ :=
    history_chain (Session.new tree workspace table systemPrefixes options) commands
  have hlast := (new_sound tree workspace table systemPrefixes options).chain hchain
  exact ⟨hlast.consistent, hlast.numbered, hlast.dependent, by simp⟩

end Rebuild.Build
