import Mathlib
import Rebuild.Build.LineCompiler
import Rebuild.Proofs.Build.Soundness

/-! Which files a build compiles. Main statement: those that the queue brings and those that depend
on a file whose declarations changed, and no others. -/
namespace Rebuild.Build

variable {σ τ : Type}

/-- Does an event queue or remove files? -/
def Event.isEdit : Event → Bool
  | markDirty _ | markAllDirty | removeFile _ => true
  | _ => false

def Moment.isEdit (m : Moment τ) : Bool := m.event?.any Event.isEdit

/-- With a file whose declarations change, the files that depend on it then are among some files. -/
def Closed (moments : List (Moment τ)) (files : Set FileId) : Prop :=
  ∀ m ∈ moments, ∀ g ∈ files, m.Changes g → ∀ file ∈ m.after.cache.dependents g, file ∈ files

theorem queue_apply (s : Session τ) {e : Event} (h : ¬ e.isEdit) :
    (s.apply e).queue = s.queue := by
  cases e with
  | markDirty p => exact absurd rfl h
  | markAllDirty => exact absurd rfl h
  | removeFile p => exact absurd rfl h
  | _ => rfl

variable {seen moments : List (Moment τ)} {p q : Phase} {s t : Session τ} {m : Moment τ}
  {file : FileId}

/-! ## Files that wait are compiled -/

/-- A file of a project whose compilation began, or is about to, or waits for its turn. -/
structure Awaited (file : FileId) (seen : List (Moment τ)) (p : Phase) (s : Session τ) : Prop where
  project : s.workspace.InProject file
  progress : (∃ m ∈ seen, m.Calls file) ∨ p = .opening file ∨ s.queue.isDue file

theorem Awaited.work (h : Awaited file seen p m.before) (hm : Work p m q) (hquiet : ¬ m.isEdit) :
    Awaited file (seen ++ [m]) q m.after := by
  refine ⟨h.project.grows hm.grows, ?_⟩
  rcases h.progress with ⟨start, hstart, hcalls⟩ | hprogress
  · exact .inl ⟨start, List.mem_append_left _ hstart, hcalls⟩
  -- Outside its own turn a file stays due, since without edits nothing else touches its entry.
  have hkeep (hdue : m.before.queue.isDue file)
      (hstate : m.after.queue.state? file = m.before.queue.state? file) :
      m.after.queue.isDue file := (Queue.isDue_congr hstate).trans hdue
  cases hm with
  | @taken s g hdue =>
    have htaken := s.queue.state?_setState g file .compiling
    by_cases hg : g = file
    · exact .inr (.inl (hg ▸ rfl))
    · rw [if_neg hg] at htaken
      rcases hprogress with hp | hwaits
      · cases hp
      · exact .inr (.inr (hkeep hwaits htaken))
  | @dropped s g hnone =>
    have hg : g ≠ file := by
      rintro rfl
      exact Session.request_eq_none hnone h.project
    have hremoved := s.queue.state?_remove g file
    rw [if_neg hg] at hremoved
    rcases hprogress with hp | hwaits
    · cases hp
      exact absurd rfl hg
    · exact .inr (.inr (hkeep hwaits hremoved))
  | @called s t g request hsome =>
    obtain ⟨hfile, -, -, hqueue, -⟩ := Session.request_eq_some hsome
    rcases hprogress with hp | hwaits
    · cases hp
      exact .inl ⟨_, List.mem_append_right _ (List.mem_singleton_self _), congrArg some hfile⟩
    · exact .inr (.inr (hkeep hwaits (by rw [hqueue])))
  | event request s e =>
    have hqueue : (s.apply e).queue = s.queue := queue_apply s hquiet
    rcases hprogress with hp | hwaits
    · cases hp
    · exact .inr (.inr (hkeep hwaits (by rw [hqueue])))
  | settled request s output =>
    rcases hprogress with hp | hwaits
    · cases hp
    · have hsettled := s.queue.state?_settled request.file file output.status
      rw [if_neg] at hsettled
      · have hstays : (s.queue.settled request.file output.status).isDue file :=
          (Queue.isDue_congr hsettled).trans hwaits
        have hqueue := s.settle_queue request output
        exact .inr (.inr (hqueue ▸ Queue.isDue_enqueueAll_of_isDue _ hstays))
      · -- A file that is due is not marked as being compiled, even when it is its own answer.
        rintro ⟨rfl, hstate⟩
        exact Queue.ne_compiling_of_isDue hwaits hstate

/-- When no file is due in the end, each file that was due has been called. -/
theorem called_of_isDue (hchain : Chain Work p s moments .building t)
    (hquiet : ∀ m ∈ moments, ¬ m.isEdit) (hend : t.queue.runnable = [])
    (hproject : s.workspace.InProject file) (hdue : s.queue.isDue file) :
    ∃ m ∈ moments, m.Calls file := by
  have hawaited : Awaited file moments .building t := by
    refine (hchain.restrict hquiet).invariant (I := Awaited file) ?_ []
      ⟨hproject, .inr (.inr hdue)⟩
    exact fun hm h => h.work hm.1 hm.2
  rcases hawaited.progress with hcalled | hp | hdue
  · exact hcalled
  · cases hp
  · have hmem := Queue.mem_runnable_of_isDue hdue
    rw [hend] at hmem
    cases hmem

/-! ## No other file is compiled -/

/-- All that is queued, about to be compiled or called so far is among some files. -/
structure Confined (files : Set FileId) (seen : List (Moment τ)) (p : Phase) (s : Session τ) :
    Prop where
  queued : ∀ file, s.queue.contains file → s.workspace.InProject file → file ∈ files
  opening : ∀ file, p = .opening file → s.workspace.InProject file → file ∈ files
  compiling : ∀ request, p = .compiling request → request.file ∈ files
  called : ∀ m ∈ seen, ∀ file, m.Calls file → file ∈ files

namespace Confined

variable {files : Set FileId}

/-- A step that queues nothing else and calls nothing. -/
theorem keep (h : Confined files seen p s) (hsound : Sound p s)
    (hgrows : s.workspace.Grows t.workspace)
    (hqueue : ∀ file, t.queue.contains file → s.queue.contains file ∨ file ∈ files)
    (hm : m.called? = none)
    (hopening : ∀ file, q = .opening file → t.workspace.InProject file → file ∈ files)
    (hcompiling : ∀ request, q = .compiling request → request.file ∈ files) :
    Confined files (seen ++ [m]) q t := by
  refine ⟨fun file hfile hproject => ?_, hopening, hcompiling, ?_⟩
  · rcases hqueue file hfile with hold | hnew
    -- A number given before the step stands for the same path after it.
    · exact h.queued file hold (hproject.of_grows hgrows (hsound.numbered file hold))
    · exact hnew
  · refine List.forall_mem_append.mpr ⟨h.called, List.forall_mem_singleton.mpr ?_⟩
    intro file hcalls
    rw [Moment.Calls, hm] at hcalls
    cases hcalls

theorem settle {request : CompileRequest} (h : Confined files seen (.compiling request) s)
    (hsound : Sound (.compiling request) s) (output : CompileOutput)
    (hclosed : s.Changes request output →
      ∀ file ∈ (s.settle request output).cache.dependents request.file, file ∈ files) :
    Confined files (seen ++ [⟨.settled request output, s, s.settle request output⟩]) .building
      (s.settle request output) := by
  refine h.keep hsound (s.settle_grows request output) (fun file hfile => ?_) rfl (by simp)
    (by simp)
  rw [s.settle_queue request output] at hfile
  rcases Queue.of_contains_enqueueAll hfile with hqueued | hold
  · obtain ⟨hchanges, hdependent⟩ := (s.mem_fanOut file request output).mp hqueued
    exact .inr (hclosed hchanges file hdependent)
  · exact .inl (Queue.of_contains_settled hold)

theorem work (h : Confined files seen p m.before) (hsound : Sound p m.before) (hm : Work p m q)
    (hquiet : ¬ m.isEdit) (hclosed : Closed [m] files) :
    Confined files (seen ++ [m]) q m.after := by
  cases hm with
  | @taken s g hdue =>
    refine h.keep hsound (Workspace.Grows.refl _) (fun file hfile => .inl ?_) rfl ?_ (by simp)
    · exact Queue.contains_setState _ ▸ hfile
    · rintro _ ⟨⟩ hproject
      exact h.queued g (Queue.contains_of_isDue hdue) hproject
  | @dropped s g hnone =>
    refine h.keep hsound (Workspace.Grows.refl _) (fun file hfile => .inl ?_) rfl (by simp)
      (by simp)
    exact Queue.of_contains_remove hfile
  | @called s t g request hsome =>
    obtain ⟨hfile, hproject, hgrows, hqueue, -⟩ := Session.request_eq_some hsome
    have hmem : request.file ∈ files := hfile ▸ h.opening g rfl hproject
    refine ⟨fun file hwaits hin => ?_, by simp, ?_, ?_⟩
    · have hold : s.queue.contains file := hqueue ▸ hwaits
      exact h.queued file hold (hin.of_grows hgrows (hsound.numbered file hold))
    · rintro _ ⟨⟩
      exact hmem
    · refine List.forall_mem_append.mpr ⟨h.called, List.forall_mem_singleton.mpr ?_⟩
      intro file hcalls
      obtain rfl : request.file = file := Option.some.inj hcalls
      exact hmem
  | event request s e =>
    have hqueue : (s.apply e).queue = s.queue := queue_apply s hquiet
    exact h.keep hsound (s.apply_grows e) (fun file hfile => .inl (hqueue ▸ hfile)) rfl (by simp)
      h.compiling
  | settled request s output =>
    refine h.settle hsound output fun hchanges => ?_
    exact hclosed _ (List.mem_singleton_self _) request.file (h.compiling request rfl)
      ⟨request, output, rfl, rfl, hchanges⟩

end Confined

theorem called_mem_of_closed {files : Set FileId} (hsound : Sound .building s)
    (hchain : Chain Work .building s moments q t) (hquiet : ∀ m ∈ moments, ¬ m.isEdit)
    (hclosed : Closed moments files)
    (hqueued : ∀ file, s.queue.contains file → s.workspace.InProject file → file ∈ files) :
    ∀ m ∈ moments, m.Calls file → file ∈ files := by
  have hall : ∀ m ∈ moments, ¬ m.isEdit ∧ Closed [m] files := by
    intro m hm
    refine ⟨hquiet m hm, fun other hother => ?_⟩
    rw [List.mem_singleton.mp hother]
    exact hclosed m hm
  have hconfined : Sound q t ∧ Confined files moments q t := by
    refine (hchain.restrict hall).invariant
      (I := fun seen p s => Sound p s ∧ Confined files seen p s) ?_ []
      ⟨hsound, hqueued, by simp, by simp, by simp⟩
    rintro seen p m q ⟨hm, hquiet, hclosed⟩ ⟨hsound, h⟩
    exact ⟨hsound.work hm, h.work hsound hm hquiet hclosed⟩
  intro m hm hcalls
  exact hconfined.2.called m hm file hcalls

/-! ## Builds -/

section Work

variable (hsound : Sound .building s) (hquiet : ∀ m ∈ moments, ¬ m.isEdit)
  (hend : t.queue.runnable = [])
include hsound hquiet hend

theorem dependents_called (hchain : Chain Work .building s moments .building t)
    {earlier rest : List (Moment τ)} (hsplit : moments = earlier ++ m :: rest) {g : FileId}
    (hm : m.Changes g) (hfile : file ∈ m.after.cache.dependents g) :
    ∃ start ∈ rest, start.Calls file := by
  subst hsplit
  obtain ⟨p, next, hearlier, hstep, hrest⟩ := hchain.split_cons
  have hafter : Sound next m.after := (hsound.chain (hearlier.imp .work)).work hstep
  have hdue := (Step.work hstep).isDue_of_changes hm hfile
  refine called_of_isDue hrest (fun m' hm' => ?_) hend (hafter.dependent_inProject hfile) hdue
  exact hquiet m' (List.mem_append_right _ (List.mem_cons_of_mem _ hm'))

theorem calledFiles_isLeast (hchain : Chain Work .building s moments .building t)
    (hdue : ∀ file, s.queue.contains file → s.queue.isDue file) :
    IsLeast {files : Set FileId |
        (∀ file, s.queue.contains file → s.workspace.InProject file → file ∈ files) ∧
          Closed moments files}
      {file | file ∈ calledFiles moments} := by
  constructor
  · constructor
    · intro file hfile hproject
      exact mem_calledFiles.mpr (called_of_isDue hchain hquiet hend hproject (hdue file hfile))
    · intro m hm g _ hchanges file hfile
      obtain ⟨earlier, rest, hsplit⟩ := List.append_of_mem hm
      obtain ⟨start, hstart, hcalls⟩ :=
        dependents_called hsound hquiet hend hchain hsplit hchanges hfile
      refine mem_calledFiles.mpr ⟨start, ?_, hcalls⟩
      exact hsplit ▸ List.mem_append_right _ (List.mem_cons_of_mem _ hstart)
  · intro files ⟨hqueued, hclosed⟩ file hfile
    obtain ⟨m, hm, hcalls⟩ := mem_calledFiles.mp hfile
    exact called_mem_of_closed hsound hchain hquiet hclosed hqueued m hm hcalls

end Work

variable {compiler : Compiler σ τ} {n : Nat} {cancelled : Bool} {tool : σ}

/-- A change is neither the first nor the last moment of a build. -/
theorem split_work {first last : Moment τ} {work before later : List (Moment τ)} {g : FileId}
    (h : first :: (work ++ [last]) = before ++ m :: later) (hm : m.Changes g)
    (hfirst : ¬ first.Changes g) (hlast : ¬ last.Changes g) :
    ∃ earlier rest, work = earlier ++ m :: rest ∧ rest ⊆ later := by
  rcases before with _ | ⟨first', earlier⟩
  · obtain ⟨rfl, -⟩ := List.cons.inj h
    exact absurd hm hfirst
  · obtain ⟨-, htail⟩ := List.cons.inj h
    rcases List.append_eq_append_iff.mp htail with ⟨more, -, hmore⟩ | ⟨more, hwork, hmore⟩
    · rcases more with _ | ⟨m', more⟩
      · obtain ⟨rfl, -⟩ := List.cons.inj hmore
        exact absurd hm hlast
      · have hlength := congrArg List.length hmore
        simp at hlength
    · rcases more with _ | ⟨m', rest⟩
      · obtain ⟨rfl, -⟩ := List.cons.inj hmore
        exact absurd hm hlast
      · obtain ⟨rfl, rfl⟩ := List.cons.inj hmore
        exact ⟨earlier, rest, hwork, List.subset_append_left _ _⟩

theorem closed_iff_of_not_changes {first last : Moment τ} {work : List (Moment τ)}
    {files : Set FileId} (hfirst : ∀ g, ¬ first.Changes g) (hlast : ∀ g, ¬ last.Changes g) :
    Closed (first :: (work ++ [last])) files ↔ Closed work files := by
  constructor
  · intro h m hm
    exact h m (List.mem_cons_of_mem _ (List.mem_append_left _ hm))
  · intro h m hm g hg hchanges
    rcases List.mem_cons.mp hm with rfl | hm
    · exact absurd hchanges (hfirst g)
    rcases List.mem_append.mp hm with hm | hm
    · exact h m hm g hg hchanges
    · rw [List.mem_singleton.mp hm] at hchanges
      exact absurd hchanges (hlast g)

/-- A build that is not interrupted, during which nothing is queued or removed from outside,
compiles again each file that depended on a file when the declarations of that file changed. The
files that it compiles are the least set with the queued files that lie in a project which is closed
under the files depending on one whose declarations changed. -/
theorem build_propagates (tree : FileTree) (workspace : Workspace) (table : Table Classpath)
    (systemPrefixes : List String) (options : Options) (commands : List (Command σ τ))
    (compiler : Compiler σ τ) (n : Nat) (cancelled : Bool) (tool : σ) {report : Report}
    {s s' : Session τ} {tool' : σ}
    (hs : s = (Session.new tree workspace table systemPrefixes options).after commands)
    (hbuild : s.build compiler n cancelled tool = some (.ok (report, s', tool')))
    (hreport : report.outcome.interrupted = false)
    (hquiet : ∀ m ∈ s.buildMoments compiler n cancelled tool, ¬ m.isEdit) :
    (∀ before m later g, s.buildMoments compiler n cancelled tool = before ++ m :: later →
      m.Changes g → ∀ file ∈ m.after.cache.dependents g, ∃ start ∈ later, start.Calls file) ∧
    IsLeast {files : Set FileId |
        (∀ file, s.queue.contains file → s.workspace.InProject file → file ∈ files) ∧
          Closed (s.buildMoments compiler n cancelled tool) files}
      {file | ∃ attempt ∈ report.attempts, attempt.file = file} := by
  have hidle : Sound .idle s :=
    hs ▸ after_sound tree workspace table systemPrefixes options commands
  have hsound : Sound .building (s.start cancelled) := hidle.step (Step.started s cancelled)
  obtain ⟨t, hchain, -, hattempts, hrunnable⟩ := build_work hbuild
  have hend := hrunnable hreport
  obtain ⟨reached, hmoments⟩ := buildMoments_eq hbuild
  rw [hmoments] at hquiet ⊢
  have hwork : ∀ m ∈ s.workMoments compiler n cancelled tool, ¬ m.isEdit := by
    intro m hm
    exact hquiet m (List.mem_cons_of_mem _ (List.mem_append_left _ hm))
  have hfirst (g : FileId) :
      ¬ (⟨.started cancelled, s, s.start cancelled⟩ : Moment τ).Changes g := by
    rintro ⟨_, _, h, -⟩
    cases h
  have hlast (g : FileId) : ¬ (⟨.finished, reached, s'⟩ : Moment τ).Changes g := by
    rintro ⟨_, _, h, -⟩
    cases h
  constructor
  · intro before m later g hsplit hm file hfile
    obtain ⟨earlier, rest, hrest, hsubset⟩ := split_work hsplit hm (hfirst g) (hlast g)
    obtain ⟨start, hstart, hcalls⟩ :=
      dependents_called hsound hwork hend hchain hrest hm hfile
    exact ⟨start, hsubset hstart, hcalls⟩
  · have hleast := calledFiles_isLeast hsound hwork hend hchain fun file hfile =>
      Queue.isDue_resetFailed (Queue.contains_resetFailed ▸ hfile)
    have hcalled : {file | ∃ attempt ∈ report.attempts, attempt.file = file} =
        {file | file ∈ calledFiles (s.workMoments compiler n cancelled tool)} := by
      ext file
      rw [← hattempts]
      exact List.mem_map.symm
    have hqueue (file : FileId) :
        (s.start cancelled).queue.contains file = s.queue.contains file :=
      Queue.contains_resetFailed
    simp only [hqueue] at hleast
    simp only [hcalled, closed_iff_of_not_changes hfirst hlast]
    exact hleast

/-- A type and one that extends it were compiled, and the first has got a field since. -/
def extended : List (Command Unit Unit) :=
  [.event (.write ⟨"src/A.java"⟩ []), .event (.markDirty ⟨"src/A.java"⟩),
    .event (.write ⟨"src/B.java"⟩ "extends A".toUTF8.toList),
    .event (.markDirty ⟨"src/B.java"⟩), .build lineCompiler 3 false (),
    .event (.write ⟨"src/A.java"⟩ "field x: int".toUTF8.toList),
    .event (.markDirty ⟨"src/A.java"⟩)]

theorem extended_type_compiled_again :
    let s := Session.sample.after extended
    s.queue.files = [0] ∧
    ∃ report s' tool', s.build lineCompiler 3 false () = some (.ok (report, s', tool')) ∧
      report.attempts.map Attempt.file = [0, 1] ∧
      IsLeast {files : Set FileId |
          (∀ file, s.queue.contains file → s.workspace.InProject file → file ∈ files) ∧
            Closed (s.buildMoments lineCompiler 3 false ()) files}
        {file | ∃ attempt ∈ report.attempts, attempt.file = file} := by
  intro s
  -- One evaluation for all three, since each would run the history again.
  obtain ⟨hqueue, hquiet, hreport⟩ : s.queue.files = [0] ∧
      (∀ m ∈ s.buildMoments lineCompiler 3 false (), ¬ m.isEdit) ∧
      ((s.build lineCompiler 3 false ()).bind Except.toOption).map
        (fun r => (r.1.outcome.interrupted, r.1.attempts.map Attempt.file)) =
          some (false, [0, 1]) := by decide +kernel
  rcases hbuild : s.build lineCompiler 3 false () with _ | e | ⟨report, s', tool'⟩
  · rw [hbuild] at hreport
    cases hreport
  · rw [hbuild] at hreport
    cases hreport
  · rw [hbuild] at hreport
    obtain ⟨hinterrupted, hattempts⟩ := Prod.mk.inj (Option.some.inj hreport)
    have hpropagates := build_propagates _ _ _ _ _ extended lineCompiler 3 false () rfl hbuild
      hinterrupted hquiet
    exact ⟨hqueue, report, s', tool', rfl, hattempts, hpropagates.2⟩

end Rebuild.Build
