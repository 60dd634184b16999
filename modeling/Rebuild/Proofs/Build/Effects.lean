import Mathlib
import Rebuild.Proofs.Build.History
import Rebuild.Proofs.Build.Queue
import Rebuild.Proofs.Dependency.Update
import Rebuild.Proofs.Workspace.Growth

/-! What each operation of a session does to the queue, to the workspace and to the edges between
files. Nothing takes a file out of a project. -/
namespace Rebuild.Build

variable {τ : Type}

/-- The state in which an answer of the compiler leaves a file that was not queued again. -/
def CompileStatus.leaves : CompileStatus → Option EntryState
  | success => none
  | retryable => some .retrying
  | fatal => some .failed

/-- The queue after an answer of the compiler, before files that depend on the file are queued. -/
def Queue.settled (q : Queue) (file : FileId) : CompileStatus → Queue
  | .success => q.complete file
  | .retryable => q.advance file .compiling .retrying
  | .fatal => q.advance file .compiling .failed

theorem Queue.state?_settled (q : Queue) (file g : FileId) (status : CompileStatus) :
    (q.settled file status).state? g =
      if file = g ∧ q.state? file = some .compiling then status.leaves else q.state? g := by
  cases status with
  | success => exact q.state?_complete file g
  | retryable => exact q.state?_advance file g _ _
  | fatal => exact q.state?_advance file g _ _

theorem Queue.of_contains_settled {q : Queue} {file g : FileId} {status : CompileStatus}
    (h : (q.settled file status).contains g) : q.contains g := by
  obtain ⟨state, hstate⟩ := (contains_iff _ _).mp h
  rw [state?_settled] at hstate
  by_cases hg : file = g ∧ q.state? file = some .compiling
  · exact (contains_iff _ _).mpr ⟨_, hg.1 ▸ hg.2⟩
  · rw [if_neg hg] at hstate
    exact (contains_iff _ _).mpr ⟨state, hstate⟩

theorem Queue.nodup_settled {q : Queue} (h : q.files.Nodup) (file : FileId)
    (status : CompileStatus) : (q.settled file status).files.Nodup := by
  cases status with
  | success => exact nodup_complete h file
  | retryable => exact (files_advance q file _ _).symm ▸ h
  | fatal => exact (files_advance q file _ _).symm ▸ h

namespace Session

variable (s : Session τ) (p : Path) (file : FileId)

/-! ## Events -/

theorem register_grows : s.workspace.Grows (s.register p).2.workspace :=
  s.workspace.fileId_grows p

theorem markDirty_grows : s.workspace.Grows (s.markDirty p).2.workspace :=
  s.workspace.fileId_grows p

/-- What holds of a session and is kept when one of some files is marked holds when all are. -/
theorem markEach_induction {P : Session τ → Prop} {s : Session τ} {files : List Path} (hs : P s)
    (hstep : ∀ t, ∀ p ∈ files, P t → P (t.markDirty p).2) : P (s.markEach files) := by
  induction files generalizing s with
  | nil => exact hs
  | cons p rest ih =>
    have hmarked : P (s.markDirty p).2 := hstep s p (List.mem_cons_self ..) hs
    exact ih hmarked fun t q hq => hstep t q (List.mem_cons_of_mem p hq)

theorem markEach_grows (files : List Path) :
    s.workspace.Grows (s.markEach files).workspace := by
  apply markEach_induction (P := fun t => s.workspace.Grows t.workspace)
  · exact Workspace.Grows.refl _
  · intro t p _ ht
    exact ht.trans (t.markDirty_grows p)

theorem isDue_markDirty : (s.markDirty p).2.queue.isDue (s.markDirty p).1 :=
  Queue.isDue_enqueue _ _

theorem id?_markDirty :
    (s.markDirty p).2.workspace.files.id? p = some (s.markDirty p).1 :=
  s.workspace.id?_fileId p

theorem isDue_markEach_of_isDue {files : List Path} (h : s.queue.isDue file) :
    (s.markEach files).queue.isDue file := by
  apply markEach_induction (P := fun t => t.queue.isDue file)
  · exact h
  · intro t p _ ht
    exact Queue.isDue_enqueue_of_isDue ht

/-- Each of the files has a number afterwards, and waits. -/
theorem isDue_markEach {files : List Path} (h : p ∈ files) :
    ∃ file, (s.markEach files).workspace.files.id? p = some file ∧
      (s.markEach files).queue.isDue file := by
  induction files generalizing s with
  | nil => simp at h
  | cons q rest ih =>
    rcases List.mem_cons.mp h with rfl | hrest
    · have hgrows := (s.markDirty p).2.markEach_grows rest
      refine ⟨(s.markDirty p).1, ?_, ?_⟩
      · exact Workspace.FileRegistry.id?_of_prefix hgrows.paths (s.id?_markDirty p)
      · exact isDue_markEach_of_isDue (s.markDirty p).2 _ (s.isDue_markDirty p)
    · exact ih (s.markDirty q).2 hrest

theorem evictSource_eq :
    ∃ table, s.evictSource p = { s with cache := { s.cache with table } } := by
  unfold evictSource
  split
  next binary _ => exact ⟨s.cache.table.evict binary, rfl⟩
  next => exact ⟨s.cache.table, rfl⟩

/-- Removing a file takes it out of the queue and queues the files that depended on it. -/
theorem removeFile_eq :
    (s.removeFile p).1 = s.cache.dependents (s.register p).1 ∧
      (s.removeFile p).2.workspace = (s.register p).2.workspace ∧
      (s.removeFile p).2.queue =
        (s.queue.remove (s.register p).1).enqueueAll (s.cache.dependents (s.register p).1) ∧
      ∃ table, (s.removeFile p).2.cache =
        ({ s.cache with table } : Dependency.Cache _ τ).removeFile (s.register p).1 := by
  let registered := (s.register p).2
  let artifacts := registered.workspace.artifactsForSource registered.tree p
  let cleaned := { registered with tree := deleteFiles registered.tree artifacts }
  obtain ⟨table, htable⟩ := evictSource_eq cleaned p
  have hremove : s.removeFile p = ((cleaned.evictSource p).cache.dependents (s.register p).1,
      { cleaned.evictSource p with
        cache := (cleaned.evictSource p).cache.removeFile (s.register p).1
        queue := ((cleaned.evictSource p).queue.remove (s.register p).1).enqueueAll
          ((cleaned.evictSource p).cache.dependents (s.register p).1)
        diagnostics := (cleaned.evictSource p).diagnostics.erase (s.register p).1 }) := rfl
  rw [hremove, htable]
  exact ⟨rfl, rfl, rfl, table, rfl⟩

theorem apply_grows (e : Event) : s.workspace.Grows (s.apply e).workspace := by
  cases e with
  | register p => exact s.register_grows p
  | markDirty p => exact s.markDirty_grows p
  | markAllDirty => exact s.markEach_grows _
  | removeFile p =>
    change s.workspace.Grows (s.removeFile p).2.workspace
    rw [(s.removeFile_eq p).2.1]
    exact s.register_grows p
  | _ => exact Workspace.Grows.refl _

/-! ## Requests -/

theorem request_eq_some {s t : Session τ} {file : FileId} {request : CompileRequest}
    (h : s.request file = .ok (some (request, t))) :
    request.file = file ∧ s.workspace.InProject file ∧ s.workspace.Grows t.workspace ∧
      t.queue = s.queue ∧ t.cache = s.cache := by
  unfold Session.request at h
  split at h
  next => cases h
  next path hpath =>
    split at h
    next => cases h
    next project hproject =>
      split at h
      next => cases h
      next classpath workspace hclasspath =>
        cases h
        have hcontains := Workspace.of_projectForSource? hproject
        have hgrows := Workspace.classpath_grows hclasspath
        exact ⟨rfl, ⟨path, hpath, project, hcontains⟩, hgrows, rfl, rfl⟩

/-- What is compiled is the file with the number, in the project in which it lies. -/
theorem request_source {s t : Session τ} {file : FileId} {request : CompileRequest}
    (h : s.request file = .ok (some (request, t))) :
    s.workspace.files.path? file = some request.path ∧
      s.workspace.projectForSource? request.path = some request.project := by
  unfold Session.request at h
  split at h
  next => cases h
  next path hpath =>
    split at h
    next => cases h
    next project hproject =>
      split at h
      next => cases h
      next =>
        cases h
        exact ⟨hpath, hproject⟩

/-- The compiler is told the class path of the project. -/
theorem request_classpath {s t : Session τ} {file : FileId} {request : CompileRequest}
    (h : s.request file = .ok (some (request, t))) :
    s.workspace.classpathOf request.project.name = some request.classpath := by
  unfold Session.request at h
  split at h
  next => cases h
  next =>
    split at h
    next => cases h
    next =>
      split at h
      next => cases h
      next hclasspath =>
        cases h
        exact (Workspace.classpath_spec hclasspath).2

theorem request_eq_none {s : Session τ} {file : FileId} (h : s.request file = .ok none) :
    ¬ s.workspace.InProject file := by
  unfold Session.request at h
  split at h
  next => cases h
  next path hpath =>
    split at h
    next hproject =>
      rintro ⟨path', hpath', hcontains⟩
      obtain rfl : path' = path := Option.some.inj (hpath'.symm.trans hpath)
      exact Workspace.projectForSource?_eq_none_iff.mp hproject hcontains
    next project hproject =>
      split at h
      next => cases h
      next => cases h

/-! ## Answers of the compiler -/

theorem takeArtifacts_eq (output : CompileOutput) : ∃ tree table,
    (s.takeArtifacts p output).2 = { s with tree, cache := { s.cache with table } } := by
  unfold takeArtifacts
  split
  next => exact ⟨s.tree, s.cache.table, rfl⟩
  next =>
    unfold removeStale
    simp only
    split
    next =>
      obtain ⟨table, htable⟩ := evictSource_eq ({ s with tree := _ } : Session τ) p
      exact ⟨_, table, htable⟩
    next => exact ⟨_, s.cache.table, rfl⟩

/-- Learning from artifacts is an update of the cache with a source map that numbers files. -/
theorem learn_eq (project : String) (output : CompileOutput) :
    ∃ (tree : FileTree) (table : _) (artifacts : List Path) (read : Path → Option (List UInt8)),
      let result := ({ s.cache with table } : Dependency.Cache _ τ).update (Classpath.finder tree)
        read (Workspace.fileForTypeIn tree project) file artifacts s.workspace
      s.learn file p project output =
        (result.1, { s with tree, cache := result.2.1, workspace := result.2.2 }) := by
  obtain ⟨tree, table, htaken⟩ := takeArtifacts_eq s p output
  rcases htake : s.takeArtifacts p output with ⟨artifacts, t⟩
  rw [htake] at htaken
  change t = _ at htaken
  refine ⟨tree, table, artifacts, fun q => (tree.read q).toOption, ?_⟩
  simp only [learn, htake, htaken, updateDependencies]

theorem learn_queue (project : String) (output : CompileOutput) :
    (s.learn file p project output).2.queue = s.queue := by
  obtain ⟨tree, table, artifacts, read, hlearn⟩ := learn_eq s p file project output
  rw [hlearn]

theorem learn_grows (project : String) (output : CompileOutput) :
    s.workspace.Grows (s.learn file p project output).2.workspace := by
  obtain ⟨tree, table, artifacts, read, hlearn⟩ := learn_eq s p file project output
  rw [hlearn]
  refine Dependency.Cache.update_world_induction (P := fun w => s.workspace.Grows w) _ _ _ file
    artifacts _ (Workspace.Grows.refl _) ?_
  intro name w hw
  exact hw.trans (Workspace.fileForTypeIn_grows tree project name w)

theorem learn_consistent {s : Session τ} (h : s.cache.Consistent) (project : String)
    (output : CompileOutput) : (s.learn file p project output).2.cache.Consistent := by
  obtain ⟨tree, table, artifacts, read, hlearn⟩ := learn_eq s p file project output
  rw [hlearn]
  exact (h.withTable table).update _ _ _ _ _ _

theorem learn_dependencies_of_ne (project : String) (output : CompileOutput) {g : FileId}
    (h : g ≠ file) :
    (s.learn file p project output).2.cache.dependencies g = s.cache.dependencies g := by
  obtain ⟨tree, table, artifacts, read, hlearn⟩ := learn_eq s p file project output
  rw [hlearn]
  exact Dependency.Cache.dependencies_update_of_ne _ _ _ _ _ _ _ h

variable (request : CompileRequest) (output : CompileOutput)

theorem acceptSuccess_eq (project : String) :
    let learnt := s.learn file p project output
    let accepted := s.acceptSuccess file p project output
    accepted.workspace = learnt.2.workspace ∧ accepted.cache = learnt.2.cache ∧
      accepted.queue = if learnt.1.declarationsChanged
        then (s.queue.complete file).enqueueAll (accepted.cache.dependents file)
        else s.queue.complete file := by
  intro learnt accepted
  have hqueue := learn_queue s p file project output
  rcases hlearn : s.learn file p project output with ⟨update, t⟩
  rw [hlearn] at hqueue
  change t.queue = s.queue at hqueue
  simp only [accepted, learnt, acceptSuccess, hlearn]
  split
  next => exact ⟨rfl, rfl, by rw [← hqueue]; rfl⟩
  next => exact ⟨rfl, rfl, by rw [← hqueue]; rfl⟩

variable {s request output} in
theorem settle_accepted (hsuccess : output.status = .success)
    (hqueued : s.queue.contains request.file) :
    s.settle request output =
      s.acceptSuccess request.file request.path request.project.name output := by
  simp only [settle, hsuccess, onSuccess, hqueued, ↓reduceIte]

variable {s request output} in
/-- Only from the success of a file that is still queued anything is learnt. -/
theorem settle_cache_of_refused (h : ¬ (output.status = .success ∧ s.queue.contains request.file)) :
    (s.settle request output).cache = s.cache := by
  unfold settle
  cases hstatus : output.status with
  | success =>
    have hqueued : ¬ s.queue.contains request.file := fun hqueued => h ⟨hstatus, hqueued⟩
    simp only [onSuccess, hqueued, Bool.false_eq_true, ↓reduceIte]
  | retryable => rfl
  | fatal => rfl

/-- What an answer does not touch. -/
theorem settle_frame : ∃ tree workspace cache queue diagnostics,
    s.settle request output = { s with tree, workspace, cache, queue, diagnostics } := by
  unfold settle
  cases output.status with
  | success =>
    simp only [onSuccess]
    split
    · obtain ⟨tree, table, artifacts, read, hlearn⟩ :=
        learn_eq s request.path request.file request.project.name output
      simp only [acceptSuccess, hlearn, setDiagnostics]
      split <;> exact ⟨_, _, _, _, _, rfl⟩
    · exact ⟨_, _, _, _, _, rfl⟩
  | retryable => exact ⟨_, _, _, _, _, rfl⟩
  | fatal => exact ⟨_, _, _, _, _, rfl⟩

/-- An answer leaves the workspace and the cache alone, or learns from the artifacts. -/
theorem settle_world :
    ((s.settle request output).workspace = s.workspace ∧
      (s.settle request output).cache = s.cache) ∨
    let learnt := (s.learn request.file request.path request.project.name output).2
    (s.settle request output).workspace = learnt.workspace ∧
      (s.settle request output).cache = learnt.cache := by
  unfold settle
  cases hstatus : output.status with
  | success =>
    simp only [onSuccess]
    split
    next =>
      have haccept := acceptSuccess_eq s request.path request.file output request.project.name
      exact .inr ⟨haccept.1, haccept.2.1⟩
    next => exact .inl ⟨rfl, rfl⟩
  | retryable => exact .inl ⟨rfl, rfl⟩
  | fatal => exact .inl ⟨rfl, rfl⟩

theorem settle_grows : s.workspace.Grows (s.settle request output).workspace := by
  rcases settle_world s request output with ⟨hworkspace, -⟩ | ⟨hworkspace, -⟩
  · rw [hworkspace]
    exact Workspace.Grows.refl _
  · rw [hworkspace]
    exact learn_grows _ _ _ _ _

instance : Decidable (s.Changes request output) := inferInstanceAs (Decidable (_ ∧ _ ∧ _))

/-- The files that an answer of the compiler queues. -/
def fanOut : List FileId :=
  if s.Changes request output then (s.settle request output).cache.dependents request.file else []

theorem mem_fanOut : file ∈ s.fanOut request output ↔
    s.Changes request output ∧ file ∈ (s.settle request output).cache.dependents request.file := by
  unfold fanOut
  split_ifs with hchanges
  · simp [hchanges]
  · simp [hchanges]

theorem settle_queue : (s.settle request output).queue =
    (s.queue.settled request.file output.status).enqueueAll (s.fanOut request output) := by
  unfold fanOut
  cases hstatus : output.status with
  | success =>
    have haccept := acceptSuccess_eq s request.path request.file output request.project.name
    simp only [settle, hstatus, onSuccess, Changes, true_and, Queue.settled]
    by_cases hcontains : s.queue.contains request.file
    · simp only [hcontains, ↓reduceIte, true_and]
      rw [haccept.2.2]
      split_ifs <;> rfl
    · -- the file was removed while it was compiled, so that there is nothing to complete
      have hstate : s.queue.state? request.file ≠ some .compiling := by
        intro hstate
        exact hcontains ((s.queue.contains_iff request.file).mpr ⟨_, hstate⟩)
      simp only [hcontains, Bool.false_eq_true, ↓reduceIte, false_and, Queue.complete, hstate]
      rfl
  | retryable => simp [settle, hstatus, Changes, Queue.settled, conclude, Queue.enqueueAll]
  | fatal => simp [settle, hstatus, Changes, Queue.settled, onFatal, conclude, Queue.enqueueAll]

end Session

/-! ## Steps -/

theorem Work.grows {p q : Phase} {m : Moment τ} (h : Work p m q) :
    m.before.workspace.Grows m.after.workspace := by
  cases h with
  | taken hdue => exact Workspace.Grows.refl _
  | dropped hnone => exact Workspace.Grows.refl _
  | called hsome =>
    obtain ⟨-, -, hgrows, -⟩ := Session.request_eq_some hsome
    exact hgrows
  | event request s e => exact s.apply_grows e
  | settled request s output => exact s.settle_grows request output

theorem Step.grows {p q : Phase} {m : Moment τ} (h : Step p m q) :
    m.before.workspace.Grows m.after.workspace := by
  cases h with
  | work h => exact h.grows
  | event s e => exact s.apply_grows e
  | started s cancelled => exact Workspace.Grows.refl _
  | finished s diagnostics interrupted lastBuild => exact Workspace.Grows.refl _
  | failed hp s e => exact Workspace.Grows.refl _

theorem Chain.grows {p q : Phase} {s t : Session τ} {moments : List (Moment τ)}
    (h : Chain Step p s moments q t) : s.workspace.Grows t.workspace :=
  h.invariant (I := fun _ _ u => s.workspace.Grows u.workspace)
    (fun hm hgrows => hgrows.trans hm.grows) [] (Workspace.Grows.refl _)

variable {p q : Phase} {m : Moment τ} {file : FileId}

theorem Step.after_event (h : Step p m q) {e : Event} (he : m.happening = .event e) :
    m.after = m.before.apply e := by
  cases h with
  | work h => cases h <;> cases he; rfl
  | event s e => cases he; rfl
  | _ => cases he

theorem Step.after_settled (h : Step p m q) {request : CompileRequest} {output : CompileOutput}
    (hm : m.happening = .settled request output) : m.after = m.before.settle request output := by
  cases h with
  | work h => cases h <;> cases hm; rfl
  | _ => cases hm

theorem Step.isDue_of_changes (h : Step p m q) {g : FileId} (hm : m.Changes g)
    (hfile : file ∈ m.after.cache.dependents g) : m.after.queue.isDue file := by
  obtain ⟨request, output, hhappening, rfl, hchanges⟩ := hm
  have hafter := h.after_settled hhappening
  rw [hafter] at hfile ⊢
  rw [m.before.settle_queue request output]
  exact Queue.isDue_enqueueAll ((m.before.mem_fanOut _ request output).mpr ⟨hchanges, hfile⟩)

/-- A file that was put in the queue is due. -/
theorem Step.isDue_of_enqueues (h : Step p m q) (hm : m.Enqueues file) :
    m.after.queue.isDue file := by
  rcases hm with ⟨path, he, hfile⟩ | ⟨he, path, hpath, hfile⟩ | ⟨path, he, hfile⟩ | ⟨g, hg, hfile⟩
  · rw [h.after_event he, ← hfile]
    exact m.before.isDue_markDirty path
  · have hafter := h.after_event he
    obtain ⟨number, hnumber, hdue⟩ := m.before.isDue_markEach path hpath
    rw [hafter] at hfile ⊢
    obtain rfl : number = file := Option.some.inj (hnumber.symm.trans hfile)
    exact hdue
  · obtain ⟨hdependents, -, hqueue, -⟩ := m.before.removeFile_eq path
    rw [hdependents] at hfile
    rw [h.after_event he]
    change (m.before.removeFile path).2.queue.isDue file
    rw [hqueue]
    exact Queue.isDue_enqueueAll hfile
  · exact h.isDue_of_changes hg hfile

end Rebuild.Build
