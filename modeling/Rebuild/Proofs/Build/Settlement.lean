import Mathlib
import Rebuild.Build.LineCompiler
import Rebuild.Proofs.Build.Order
import Rebuild.Proofs.Build.Retention
import Rebuild.Proofs.Build.Soundness
import Rebuild.Proofs.Workspace.Construction

/-! What a build leaves behind. Main statement: a build that returns reports an outcome, whatever
the compiler and the events were, and the files that stay queued after it are those that failed. -/
namespace Rebuild.Build

variable {σ τ : Type}

/-! ## Builds do not give up -/

theorem request_eq_ok {s : Session τ} {file : FileId} (hnamed : s.workspace.Named)
    (hnumber : ∃ path, s.workspace.files.path? file = some path) :
    ∃ result, s.request file = .ok result := by
  obtain ⟨path, hpath⟩ := hnumber
  unfold Session.request
  simp only [hpath]
  split
  next => exact ⟨none, rfl⟩
  next project hproject =>
    have hmem := (Workspace.of_projectForSource? hproject).1
    obtain ⟨entries, workspace, hclasspath⟩ := Workspace.classpath_eq_ok (hnamed.contains hmem)
    simp only [hclasspath]
    exact ⟨_, rfl⟩

namespace Running

variable {compiler : Compiler σ τ} {r : Running σ τ}

theorem compileFile_eq_ok {file : FileId} (hnamed : r.session.workspace.Named)
    (hnumber : ∃ path, r.session.workspace.files.path? file = some path) :
    ∃ r', r.compileFile compiler file = .ok r' := by
  obtain ⟨result, hrequest⟩ := request_eq_ok hnamed hnumber
  unfold compileFile
  rw [hrequest]
  rcases result with _ | ⟨request, opened⟩
  · exact ⟨_, rfl⟩
  · exact ⟨_, rfl⟩

theorem plan_eq_ok (s : Session τ) (runnable : List FileId) :
    ∃ order, plan s runnable = .ok order ∧ ∀ file, file ∈ order ↔ file ∈ runnable := by
  unfold plan
  split
  · exact ⟨runnable, rfl, fun _ => Iff.rfl⟩
  · obtain ⟨order, horder, hmem⟩ :=
      Order.topological_eq_ok runnable s.cache.dependencies s.options.cycleProbeLimit
    rw [horder]
    exact ⟨order, rfl, hmem⟩

/-- A running build whose queued files have numbers and whose projects are known. -/
def Sane (r : Running σ τ) : Prop := Sound .building r.session ∧ r.session.workspace.Named

theorem Leads.sane {r' : Running σ τ} {moments : List (Moment τ)}
    (h : Leads r .building moments r') (hr : r.Sane) : r'.Sane := by
  have hchain := h.chain.imp Step.work
  exact ⟨hr.1.chain hchain, hr.2.grows hchain.grows⟩

theorem pass_eq_ok (order : List FileId) (hr : r.Sane) :
    ∃ r', pass compiler order r = .ok r' ∧ r'.Sane := by
  suffices hpass : ∃ r', pass compiler order r = .ok r' by
    obtain ⟨r', hpass⟩ := hpass
    have hends := pass_ends compiler order r
    rw [hpass] at hends
    exact ⟨r', hpass, Leads.sane hends hr⟩
  induction order generalizing r with
  | nil => exact ⟨r, rfl⟩
  | cons file rest ih =>
    unfold pass
    split
    next => exact ⟨_, rfl⟩
    next =>
      split
      next hdue =>
        have hnumber := hr.1.numbered file (Queue.contains_of_isDue hdue)
        let taken : Running σ τ := { r with session := r.session.take file }
        obtain ⟨u, hu⟩ : ∃ u, taken.compileFile compiler file = .ok u :=
          compileFile_eq_ok hr.2 hnumber
        have hsteps : Leads taken (.opening file) _ u := leads_compileFile compiler hu
        have hu' : u.Sane := by
          have hchain := (Chain.cons (Work.taken hdue) hsteps.chain).imp Step.work
          exact ⟨hr.1.chain hchain, hr.2.grows hchain.grows⟩
        simp only [taken] at hu
        rw [hu]
        simp only
        split
        next => exact ⟨u, rfl⟩
        next => exact ih hu'
      next => exact ih hr

theorem passes_ne_error (n : Nat) (hr : r.Sane) (e : BuildError) :
    passes compiler n r ≠ some (.error e) := by
  induction n generalizing r with
  | zero => simp [passes]
  | succ n ih =>
    unfold passes
    rcases hrunnable : r.session.queue.runnable with _ | ⟨first, others⟩
    · simp
    · obtain ⟨order, horder, -⟩ := plan_eq_ok r.session (first :: others)
      obtain ⟨u, hu, hsane⟩ : ∃ u, pass compiler order r = .ok u ∧ u.Sane := pass_eq_ok order hr
      simp only [horder, hu]
      split
      next => simp
      next => exact ih hsane

end Running

variable {compiler : Compiler σ τ} {n : Nat} {cancelled : Bool} {s : Session τ} {tool : σ}

theorem build_ne_error (hsound : Sound .idle s) (hnamed : s.workspace.Named) (e : BuildError) :
    s.build compiler n cancelled tool ≠ some (.error e) := by
  have hstart : Running.Sane { session := s.start cancelled, tool } :=
    ⟨hsound.step (Step.started s cancelled), hnamed⟩
  have hpasses (f : BuildError) : Running.passes compiler n _ ≠ some (.error f) :=
    Running.passes_ne_error n hstart f
  unfold Session.build
  rcases hresult : Running.passes compiler n { session := s.start cancelled, tool } with _ | f | r
  · simp
  · exact absurd hresult (hpasses f)
  · simp [Except.map]

theorem buildMoments_not_failed (hsound : Sound .idle s) (hnamed : s.workspace.Named) :
    ∀ m ∈ s.buildMoments compiler n cancelled tool, ∀ e, m.happening ≠ .failed e := by
  have hne (f : BuildError) : s.build compiler n cancelled tool ≠ some (.error f) :=
    build_ne_error hsound hnamed f
  have hwork : ∀ m ∈ s.workMoments compiler n cancelled tool, ∀ e, m.happening ≠ .failed e := by
    obtain ⟨q, t, hchain⟩ := workMoments_chain compiler n cancelled s tool
    intro m hm e
    obtain ⟨p, q, hstep⟩ := hchain.step_of_mem hm
    cases hstep <;> simp
  intro m hm
  unfold Session.buildMoments at hm
  rcases List.mem_cons.mp hm with rfl | hm
  · simp
  rcases List.mem_append.mp hm with hm | hm
  · exact hwork m hm
  · split at hm
    next => cases hm
    next e he => exact absurd he (hne e)
    next =>
      rw [List.mem_singleton.mp hm]
      simp

theorem history_not_failed (hsound : Sound .idle s) (hnamed : s.workspace.Named)
    (commands : List (Command σ τ)) : ∀ m ∈ history s commands, ∀ e, m.happening ≠ .failed e := by
  induction commands generalizing s with
  | nil => simp [history]
  | cons command rest ih =>
    have hfirst : ∀ m ∈ command.moments s, ∀ e, m.happening ≠ .failed e := by
      cases command with
      | event e =>
        intro m hm
        rw [List.mem_singleton.mp hm]
        simp
      | build compiler n cancelled tool => exact buildMoments_not_failed hsound hnamed
    obtain ⟨t, hchain⟩ := command.moments_ends s
    unfold history
    split
    next hreturns =>
      rw [if_pos hreturns] at hchain
      refine List.forall_mem_append.mpr ⟨hfirst, ?_⟩
      rw [hchain.lastSession_eq]
      exact ih (hsound.chain hchain) (hnamed.grows hchain.grows)
    next => exact hfirst

/-! ## Where queued files stand -/

/-- Each file is queued once, and stands as being compiled only while it is. -/
structure Orderly (p : Phase) (s : Session τ) : Prop where
  nodup : s.queue.files.Nodup
  compiling : ∀ file, s.queue.state? file = some .compiling →
    p = .opening file ∨ ∃ request, p = .compiling request ∧ request.file = file

theorem compiling_of_enqueueAll {q : Queue} {files : List FileId} {file : FileId}
    (h : (q.enqueueAll files).state? file = some .compiling) : q.state? file = some .compiling :=
  (Queue.Keeps.enqueueAll q files).compiling h

theorem compiling_of_apply {s : Session τ} {e : Event} {file : FileId}
    (h : (s.apply e).queue.state? file = some .compiling) :
    s.queue.state? file = some .compiling := by
  by_cases hremoves : ∃ p, e = .removeFile p
  · obtain ⟨p, rfl⟩ := hremoves
    change (s.removeFile p).2.queue.state? file = some .compiling at h
    rw [(s.removeFile_eq p).2.2.1] at h
    have hremoved := compiling_of_enqueueAll h
    rw [Queue.state?_remove] at hremoved
    split_ifs at hremoved
    exact hremoved
  · exact (apply_keeps s fun p hp => absurd ⟨p, hp⟩ hremoves).compiling h

theorem nodup_apply {s : Session τ} (h : s.queue.files.Nodup) (e : Event) :
    (s.apply e).queue.files.Nodup := by
  cases e with
  | markDirty p => exact Queue.nodup_enqueue h _
  | markAllDirty =>
    exact Session.markEach_induction (P := fun t => t.queue.files.Nodup) h
      fun t p _ ht => Queue.nodup_enqueue ht _
  | removeFile p =>
    change (s.removeFile p).2.queue.files.Nodup
    rw [(s.removeFile_eq p).2.2.1]
    exact Queue.nodup_enqueueAll (Queue.nodup_remove h _) _
  | _ => exact h

namespace Orderly

variable {p q : Phase} {m : Moment τ} {s t : Session τ}

/-- A state in which no file is being compiled is one for all phases. -/
theorem of_none (hnodup : s.queue.files.Nodup)
    (hnone : ∀ file, s.queue.state? file ≠ some .compiling) : Orderly q s :=
  ⟨hnodup, fun file hfile => absurd hfile (hnone file)⟩

theorem not_compiling (h : Orderly p s) (hp : p = .idle ∨ p = .building) (file : FileId) :
    s.queue.state? file ≠ some .compiling := by
  intro hfile
  rcases h.compiling file hfile with hopening | ⟨request, hcompiling, -⟩
  · rcases hp with rfl | rfl <;> cases hopening
  · rcases hp with rfl | rfl <;> cases hcompiling

theorem apply (h : Orderly p s) (e : Event) : Orderly p (s.apply e) :=
  ⟨nodup_apply h.nodup e, fun file hfile => h.compiling file (compiling_of_apply hfile)⟩

theorem settle {request : CompileRequest} (h : Orderly (.compiling request) s)
    (output : CompileOutput) : Orderly q (s.settle request output) := by
  have hqueue := s.settle_queue request output
  refine of_none ?_ fun file hfile => ?_
  · rw [hqueue]
    exact Queue.nodup_enqueueAll (Queue.nodup_settled h.nodup _ _) _
  · rw [hqueue] at hfile
    have hsettled := compiling_of_enqueueAll hfile
    rw [Queue.state?_settled] at hsettled
    split_ifs at hsettled with hanswered
    · cases hstatus : output.status <;> simp [hstatus, CompileStatus.leaves] at hsettled
    · rcases h.compiling file hsettled with hp | ⟨_, hp, hrequest⟩
      · cases hp
      · cases hp
        exact hanswered ⟨hrequest, hrequest ▸ hsettled⟩

theorem work (h : Orderly p m.before) (hm : Work p m q) : Orderly q m.after := by
  cases hm with
  | @taken s file hdue =>
    refine ⟨(Queue.files_setState ..).symm ▸ h.nodup, fun g hg => .inl ?_⟩
    have hstate := s.queue.state?_setState file g .compiling
    by_cases hfile : file = g
    · rw [hfile]
    · rw [if_neg hfile] at hstate
      exact absurd (hstate.symm.trans hg) (h.not_compiling (.inr rfl) g)
  | @dropped s file hnone =>
    refine of_none (Queue.nodup_remove h.nodup file) fun g hg => ?_
    have hstate := s.queue.state?_remove file g
    by_cases hfile : file = g
    · rw [if_pos hfile] at hstate
      cases hstate.symm.trans hg
    · rw [if_neg hfile] at hstate
      rcases h.compiling g (hstate.symm.trans hg) with hp | ⟨_, hp, -⟩
      · cases hp
        exact hfile rfl
      · cases hp
  | @called s t file request hsome =>
    obtain ⟨hfile, -, -, hqueue, -⟩ := Session.request_eq_some hsome
    refine ⟨hqueue ▸ h.nodup, fun g hg => .inr ⟨request, rfl, ?_⟩⟩
    rcases h.compiling g (hqueue ▸ hg) with hp | ⟨_, hp, -⟩
    · cases hp
      exact hfile
    · cases hp
  | event request s e => exact h.apply e
  | settled request s output => exact h.settle output

theorem start (h : s.queue.files.Nodup) (cancelled : Bool) : Orderly p (s.start cancelled) := by
  refine of_none ((Queue.files_resetFailed _).symm ▸ h) fun file hfile => ?_
  change s.queue.resetFailed.state? file = _ at hfile
  rw [Queue.state?_resetFailed] at hfile
  obtain ⟨state, -, hstate⟩ := Option.map_eq_some_iff.mp hfile
  rcases state.restart_eq with hrestart | hrestart <;> simp [hrestart] at hstate

theorem step (h : Orderly p m.before) (hm : Step p m q) (hfailed : ∀ e, m.happening ≠ .failed e) :
    Orderly q m.after := by
  cases hm with
  | work hm => exact h.work hm
  | event s e => exact h.apply e
  | started s cancelled => exact start h.nodup cancelled
  | finished s diagnostics interrupted lastBuild =>
    exact of_none h.nodup (h.not_compiling (.inr rfl))
  | failed hp s e => exact absurd rfl (hfailed e)

theorem chain (h : Orderly p s) {moments : List (Moment τ)} (hchain : Chain Step p s moments q t)
    (hfailed : ∀ m ∈ moments, ∀ e, m.happening ≠ .failed e) : Orderly q t :=
  (hchain.restrict hfailed).invariant (I := fun _ p s => Orderly p s)
    (fun hm h => h.step hm.1 hm.2) [] h

end Orderly

theorem after_orderly (tree : FileTree) {workspace : Workspace} (hworkspace : workspace.Named)
    (table : Table Classpath) (systemPrefixes : List String) (options : Options)
    (commands : List (Command σ τ)) :
    Orderly .idle ((Session.new tree workspace table systemPrefixes options).after commands) := by
  have hsound : Sound .idle (Session.new tree workspace table systemPrefixes options) :=
    new_sound (τ := τ) tree workspace table systemPrefixes options
  have hnew : Orderly .idle
      (Session.new tree workspace table systemPrefixes options : Session τ) :=
    ⟨List.nodup_nil, fun file hfile => by cases hfile⟩
  obtain ⟨q, hq, hchain⟩ :=
    history_ends (Session.new tree workspace table systemPrefixes options) commands
  have hlast := hnew.chain hchain (history_not_failed hsound hworkspace commands)
  exact Orderly.of_none hlast.nodup (hlast.not_compiling hq)

/-! ## Outcomes -/

theorem build_outcome {report : Report} {s' : Session τ} {tool' : σ}
    (h : s.build compiler n cancelled tool = some (.ok (report, s', tool'))) :
    report.outcome.failed = s'.queue.failed ∧
      (report.outcome.interrupted = false → s'.queue.runnable = []) := by
  unfold Session.build at h
  rcases hresult : Running.passes compiler n { session := s.start cancelled, tool } with _ | e | r
  · rw [hresult] at h
    cases h
  · rw [hresult] at h
    cases h
  · rw [hresult] at h
    cases h
    obtain ⟨diagnostics, hshow⟩ := r.showRetries_eq
    refine ⟨rfl, fun hinterrupted => ?_⟩
    have hrunnable := Running.runnable_of_passes compiler hresult hinterrupted
    have hqueue : r.finish.2.queue = r.session.queue := by
      unfold Running.finish
      rw [hshow]
    exact hqueue ▸ hrunnable

/-- In whatever session a build starts, no queued file stands as being compiled. If the build
returns, it has an outcome; no file stands as being compiled after it either, and the files that
are reported as failed are those that stand as failed in the queue. If it was not interrupted,
these are all that are queued. -/
theorem build_settles (tree : FileTree) {workspace : Workspace} (hworkspace : workspace.Made)
    (table : Table Classpath) (systemPrefixes : List String) (options : Options)
    (commands : List (Command σ τ)) (compiler : Compiler σ τ) (n : Nat) (cancelled : Bool)
    (tool : σ) :
    let s := (Session.new tree workspace table systemPrefixes options).after commands
    (∀ file, s.queue.state? file ≠ some .compiling) ∧
    ∀ result, s.build compiler n cancelled tool = some result →
      ∃ report s' tool', result = .ok (report, s', tool') ∧
        (∀ file, s'.queue.state? file ≠ some .compiling) ∧
        report.outcome.failed =
          s'.queue.files.filter (fun file => s'.queue.state? file = some .failed) ∧
        (report.outcome.interrupted = false →
          (∀ file ∈ s'.queue.files, s'.queue.state? file = some .failed) ∧
            report.outcome.failed = s'.queue.files) ∧
        (report.outcome.succeeded → s'.queue.files = [] ∧ s'.needsBuild = false) := by
  intro s
  have hsound : Sound .idle s := after_sound tree workspace table systemPrefixes options commands
  have horderly : Orderly .idle s :=
    after_orderly tree hworkspace.named table systemPrefixes options commands
  have hnamed : s.workspace.Named := by
    obtain ⟨q, hchain⟩ :=
      history_chain (Session.new tree workspace table systemPrefixes options) commands
    exact hworkspace.named.grows hchain.grows
  refine ⟨horderly.not_compiling (.inl rfl), fun result hresult => ?_⟩
  rcases result with e | ⟨report, s', tool'⟩
  · exact absurd hresult (build_ne_error hsound hnamed e)
  have hafter : Orderly .idle s' := by
    obtain ⟨t, hchain, hfinished, -⟩ := build_work hresult
    have hstart : Orderly .building (s.start cancelled) :=
      horderly.step (Step.started s cancelled) (by simp)
    have ht : Orderly .building t :=
      hchain.invariant (I := fun _ p s => Orderly p s) (fun hm h => h.work hm) [] hstart
    exact ht.step hfinished (by simp)
  obtain ⟨hfailed, hrunnable⟩ := build_outcome hresult
  have hrest : report.outcome.interrupted = false →
      ∀ file ∈ s'.queue.files, s'.queue.state? file = some .failed := by
    intro hinterrupted file hfile
    obtain ⟨state, hstate⟩ := (s'.queue.contains_iff file).mp (Queue.mem_files.mp hfile)
    by_contra hne
    have hmem : file ∈ s'.queue.runnable :=
      (Queue.mem_runnable hafter.nodup).mpr ⟨state, hstate, fun h => hne (h ▸ hstate)⟩
    rw [hrunnable hinterrupted] at hmem
    cases hmem
  rw [Queue.failed_eq hafter.nodup] at hfailed
  have hall : report.outcome.interrupted = false → report.outcome.failed = s'.queue.files := by
    intro hinterrupted
    rw [hfailed]
    exact List.filter_eq_self.mpr fun file hfile => by simpa using hrest hinterrupted file hfile
  refine ⟨report, s', tool', rfl, hafter.not_compiling (.inl rfl), hfailed,
    fun hinterrupted => ⟨hrest hinterrupted, hall hinterrupted⟩, fun hsucceeded => ?_⟩
  obtain ⟨hnone, hinterrupted⟩ :
      report.outcome.failed = [] ∧ report.outcome.interrupted = false := by
    simpa [Outcome.succeeded] using hsucceeded
  have hempty : s'.queue.files = [] := (hall hinterrupted).symm.trans hnone
  refine ⟨hempty, ?_⟩
  have hentries : s'.queue.entries.entries = [] := List.map_eq_nil_iff.mp hempty
  simp [Session.needsBuild, Queue.isEmpty, Dict.isEmpty, hentries]

/-- One of two source files refers to a type that is missing. -/
def broken : List (Command Unit Unit) :=
  [.event (.write ⟨"src/A.java"⟩ "uses Missing".toUTF8.toList),
    .event (.markDirty ⟨"src/A.java"⟩), .event (.write ⟨"src/B.java"⟩ []),
    .event (.markDirty ⟨"src/B.java"⟩)]

theorem broken_file_stays_queued :
    let s := Session.sample.after broken
    (∀ file, s.queue.state? file ≠ some .compiling) ∧
    ∃ report s' tool', s.build lineCompiler 3 false () = some (.ok (report, s', tool')) ∧
      (∀ file, s'.queue.state? file ≠ some .compiling) ∧
      report.outcome.interrupted = false ∧ s'.queue.files = [0] ∧
      report.outcome.failed = s'.queue.files := by
  intro s
  let project : Project := { name := "app", sourceRoot := ⟨"src"⟩, buildRoot := ⟨"out"⟩ }
  have hmade : Workspace.Made { projects := ⟨[("app", project)]⟩ } :=
    .addProject (.empty "java" "class") (p := project) rfl
  obtain ⟨hstart, hsettles⟩ := build_settles {} hmade
    { finder := ⟨project.ownClasspath, .empty⟩ } [] {} broken lineCompiler 3 false ()
  have hreport : ((s.build lineCompiler 3 false ()).bind Except.toOption).map
      (fun r => (r.1.outcome.interrupted, r.2.1.queue.files)) = some (false, [0]) := by
    decide +kernel
  rcases hbuild : s.build lineCompiler 3 false () with _ | result
  · rw [hbuild] at hreport
    cases hreport
  · obtain ⟨report, s', tool', rfl, hend, -, hall, -⟩ := hsettles result hbuild
    rw [hbuild] at hreport
    obtain ⟨hinterrupted, hfiles⟩ := Prod.mk.inj (Option.some.inj hreport)
    exact ⟨hstart, report, s', tool', rfl, hend, hinterrupted, hfiles, (hall hinterrupted).2⟩

end Rebuild.Build
