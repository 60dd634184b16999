import Mathlib
import Rebuild.Proofs.Build.Descent

/-! Builds with the line compiler come to an end. Main statement: whatever a session went through, a
build that finds the sources as they were at its start returns. -/
namespace Rebuild.Build

variable {τ : Type} {w : Workspace} {u : FileTree} {files : Finset FileId} {options : Options}
  {r : Running Unit τ}

/-! ## Passes -/

/-- The turn of a file that is due. -/
theorem compileFile_descends {file : FileId} (hr : Ready w files options r)
    (hnumbered : ∀ g ∈ files, ∃ path, w.files.path? g = some path)
    (hdue : r.session.queue.isDue file)
    (hreads : ∀ m ∈ ({ r with session := r.session.take file } : Running Unit τ).compileMoments
      lineCompiler file, m.ReadsAs u) :
    ∃ r', ({ r with session := r.session.take file } : Running Unit τ).compileFile lineCompiler
        file = .ok r' ∧
      (r'.interrupted = false → Ready w files options r' ∧
        workLeft w u files options r' < workLeft w u files options r) := by
  let taken : Running Unit τ := { r with session := r.session.take file }
  have hfile := hr.queued file (Queue.contains_of_isDue hdue)
  obtain ⟨r', hr'⟩ : ∃ r', taken.compileFile lineCompiler file = .ok r' :=
    Running.compileFile_eq_ok hr.sane.2 (hr.sane.1.numbered file (Queue.contains_of_isDue hdue))
  refine ⟨r', hr', fun hrunning => ?_⟩
  have heffect := compileFile_effect hr.grows (hnumbered file hfile) hdue hr' hreads
  have hwork : Chain Work .building r.session (⟨.taken file, r.session, taken.session⟩ ::
      taken.compileMoments lineCompiler file) .building r'.session :=
    Chain.cons (Work.taken hdue) (Running.leads_compileFile lineCompiler hr').chain
  have hchain := hwork.imp Step.work
  have htally : Running.Tally options taken.retries (taken.compileMoments lineCompiler file)
      (some (taken.compileFile lineCompiler file)) :=
    Running.compileFile_tally ⟨hr.going.options_eq, hr.going.running, hr.going.below⟩
  rw [hr'] at htally
  have hgoing := htally.goes_on hrunning
  have hsound := hr.sane.1.chain hchain
  have hgrows := hchain.grows
  obtain ⟨hqueued, hdepending⟩ := heffect.queued hr hfile hsound.consistent
  refine ⟨⟨hgoing, ⟨hsound, hr.sane.2.grows hgrows⟩, ?_, hr.grows.trans hgrows,
    hchain.proper hr.proper, hqueued, hdepending⟩, heffect.descends hr hgoing.below hfile hdue⟩
  exact hwork.invariant (I := fun _ p s => Orderly p s) (fun hm h => h.work hm) [] hr.orderly

theorem pass_descends (order : List FileId) (hr : Ready w files options r)
    (hnumbered : ∀ g ∈ files, ∃ path, w.files.path? g = some path)
    (hreads : ∀ m ∈ r.passMoments lineCompiler order, m.ReadsAs u) :
    ∃ r', Running.pass lineCompiler order r = .ok r' ∧
      (r'.interrupted = false → Ready w files options r' ∧
        workLeft w u files options r' ≤ workLeft w u files options r ∧
        ∀ file, order.head? = some file → r.session.queue.isDue file →
          workLeft w u files options r' < workLeft w u files options r) := by
  induction order generalizing r with
  | nil => exact ⟨r, rfl, fun _ => ⟨hr, le_rfl, by simp⟩⟩
  | cons file rest ih =>
    unfold Running.passMoments at hreads
    unfold Running.pass
    by_cases hcancelled : r.session.cancelled
    · simp only [hcancelled, ↓reduceIte]
      exact ⟨_, rfl, fun h => by simp at h⟩
    by_cases hdue : r.session.queue.isDue file
    · simp only [hcancelled, hdue, ↓reduceIte, Bool.false_eq_true] at hreads ⊢
      obtain ⟨v, hv, hdescends⟩ := compileFile_descends hr hnumbered hdue fun m hm =>
        hreads m (List.mem_cons_of_mem _ (List.mem_append_left _ hm))
      simp only [hv] at hreads ⊢
      split_ifs at hreads ⊢ with hinterrupted
      · exact ⟨v, rfl, fun h => by rw [hinterrupted] at h; cases h⟩
      · obtain ⟨hready, hlt⟩ := hdescends (Bool.not_eq_true _ ▸ hinterrupted)
        obtain ⟨r', hpass, hrest⟩ := ih hready fun m hm =>
          hreads m (List.mem_cons_of_mem _ (List.mem_append_right _ hm))
        refine ⟨r', hpass, fun hrunning => ?_⟩
        obtain ⟨hready', hle, -⟩ := hrest hrunning
        exact ⟨hready', hle.trans hlt.le, fun _ _ _ => hle.trans_lt hlt⟩
    · simp only [hcancelled, hdue, ↓reduceIte, Bool.false_eq_true] at hreads ⊢
      obtain ⟨r', hpass, hrest⟩ := ih hr hreads
      refine ⟨r', hpass, fun hrunning => ?_⟩
      obtain ⟨hready, hle, -⟩ := hrest hrunning
      refine ⟨hready, hle, fun g hg hgdue => ?_⟩
      cases hg
      exact absurd hgdue hdue

/-- The first file of a pass is due. -/
theorem plan_head (hr : Orderly .building r.session) {first : FileId} {others : List FileId}
    (hrunnable : r.session.queue.runnable = first :: others) :
    ∃ order, Running.plan r.session (first :: others) = .ok order ∧
      ∃ file, order.head? = some file ∧ r.session.queue.isDue file := by
  obtain ⟨order, horder, hmem⟩ := Running.plan_eq_ok r.session (first :: others)
  refine ⟨order, horder, ?_⟩
  rcases order with _ | ⟨file, rest⟩
  · cases (hmem first).mpr (List.mem_cons_self ..)
  · have hfile := (hmem file).mp (List.mem_cons_self ..)
    rw [← hrunnable, Queue.mem_runnable hr.nodup] at hfile
    obtain ⟨state, hstate, hne⟩ := hfile
    refine ⟨file, rfl, (Queue.isDue_iff _ _).mpr ?_⟩
    cases state with
    | pending => exact .inl hstate
    | compiling => exact absurd hstate (hr.not_compiling (.inr rfl) file)
    | retrying => exact .inr hstate
    | failed => exact absurd rfl hne

/-- The moments of one more pass, and of those after it. -/
theorem passesMoments_succ {first : FileId} {others order : List FileId}
    (hrunnable : r.session.queue.runnable = first :: others)
    (hplan : Running.plan r.session (first :: others) = .ok order) (n : Nat) :
    r.passesMoments lineCompiler (n + 1) = r.passMoments lineCompiler order ++
      match Running.pass lineCompiler order r with
      | .error _ => []
      | .ok r => if r.interrupted then [] else r.passesMoments lineCompiler n := by
  simp only [Running.passesMoments, hrunnable, hplan]
  cases Running.pass lineCompiler order r <;> rfl

/-- By induction on what is left to do. -/
theorem passes_return (hr : Ready w files options r)
    (hnumbered : ∀ g ∈ files, ∃ path, w.files.path? g = some path)
    (hreads : ∀ n, ∀ m ∈ r.passesMoments lineCompiler n, m.ReadsAs u) :
    ∃ n r', Running.passes lineCompiler n r = some (.ok r') := by
  induction hleft : workLeft w u files options r using WellFoundedLT.induction generalizing r with
  | ind left ih =>
    rcases hrunnable : r.session.queue.runnable with _ | ⟨first, others⟩
    · refine ⟨1, r, ?_⟩
      simp only [Running.passes, hrunnable]
    obtain ⟨order, hplan, file, hhead, hdue⟩ := plan_head hr.orderly hrunnable
    have hmoments := passesMoments_succ hrunnable hplan
    obtain ⟨v, hpass, hdescends⟩ := pass_descends order hr hnumbered fun m hm =>
      hreads 1 m (hmoments 0 ▸ List.mem_append_left _ hm)
    by_cases hinterrupted : v.interrupted
    · refine ⟨1, v, ?_⟩
      simp only [Running.passes, hrunnable, hplan, hpass, hinterrupted, ↓reduceIte]
    rw [Bool.not_eq_true] at hinterrupted
    obtain ⟨hready, -, hlt⟩ := hdescends hinterrupted
    obtain ⟨n, r', hrest⟩ := ih _ (hleft ▸ hlt file hhead hdue) hready (fun n m hm => by
      refine hreads (n + 1) m ?_
      rw [hmoments, hpass]
      refine List.mem_append_right _ ?_
      simpa [hinterrupted] using hm) rfl
    refine ⟨n + 1, r', ?_⟩
    simp only [Running.passes, hrunnable, hplan, hpass, hinterrupted, Bool.false_eq_true, ↓reduceIte]
    exact hrest

/-! ## Builds -/

variable {σ : Type}

/-- A queue as a build can find it: each file is queued once, and its number belongs to a path. -/
def Queue.Startable (queue : Queue) (w : Workspace) : Prop :=
  queue.files.Nodup ∧ ∀ file ∈ queue.files, ∃ path, w.files.path? file = some path

/-- Only files that have numbers as a build starts can be queued in it. -/
theorem ready_start {s : Session τ} (hsound : Sound .idle s) (hnamed : s.workspace.Named)
    (hproper : s.tree.Proper) (hnodup : s.queue.files.Nodup) (cancelled : Bool) :
    Ready s.workspace (Finset.range s.workspace.files.paths.length) s.options
      { session := s.start cancelled, tool := () } := by
  have hnumber {file : FileId} (h : ∃ path, s.workspace.files.path? file = some path) :
      file ∈ Finset.range s.workspace.files.paths.length := by
    obtain ⟨path, hpath⟩ := h
    exact Finset.mem_range.mpr (List.getElem?_eq_some_iff.mp hpath).1
  have hstarted : Sound .building (s.start cancelled) := hsound.step (Step.started s cancelled)
  refine ⟨Running.going_start cancelled s (), ⟨hstarted, hnamed⟩,
    Orderly.start hnodup cancelled, Workspace.Grows.refl _, hproper, fun file hfile => hnumber (hstarted.numbered file hfile), fun file d hd => ?_⟩
  obtain ⟨path, hpath, -⟩ := hsound.dependent file d hd
  exact hnumber ⟨path, hpath⟩

namespace Running

variable {compiler : Compiler σ τ} {r : Running σ τ}

/-- Further passes only add moments. -/
theorem passesMoments_prefix (n k : Nat) :
    r.passesMoments compiler n <+: r.passesMoments compiler (n + k) := by
  induction n generalizing r with
  | zero => exact List.nil_prefix
  | succ n ih =>
    rw [Nat.add_right_comm]
    unfold passesMoments
    rcases hrunnable : r.session.queue.runnable with _ | ⟨first, others⟩
    · exact List.prefix_rfl
    · rcases hplan : plan r.session (first :: others) with e | order
      · simp only [hplan]
        exact List.prefix_rfl
      · simp only [hplan]
        refine (List.prefix_append_right_inj _).mpr ?_
        rcases pass compiler order r with e | v
        · exact List.prefix_rfl
        · simp only
          split_ifs
          · exact List.prefix_rfl
          · exact ih

/-- When some passes suffice, further ones do nothing. -/
theorem passesMoments_eq {n : Nat} (h : (passes compiler n r).isSome) (k : Nat) :
    r.passesMoments compiler (n + k) = r.passesMoments compiler n := by
  induction n generalizing r with
  | zero => cases h
  | succ n ih =>
    rw [Nat.add_right_comm]
    unfold passesMoments
    unfold passes at h
    rcases hrunnable : r.session.queue.runnable with _ | ⟨first, others⟩
    · rfl
    · rcases hplan : plan r.session (first :: others) with e | order
      · simp only [hplan]
      · rcases hpass : pass compiler order r with e | v
        · simp only [hplan, hpass]
        · simp only [hrunnable, hplan, hpass] at h ⊢
          split_ifs at h ⊢ with hinterrupted
          · rfl
          · rw [ih h]

end Running

/-- What a build with enough passes reads is all that builds read. -/
theorem readsAs_of_returns {s : Session τ} {tool : σ} {compiler : Compiler σ τ} {n : Nat}
    (hreturns : (Running.passes compiler n { session := s.start cancelled, tool }).isSome)
    (hreads : ∀ m ∈ s.workMoments compiler n cancelled tool, m.ReadsAs u) (k : Nat) :
    ∀ m ∈ s.buildMoments compiler k cancelled tool, m.ReadsAs u := by
  have hwork : s.workMoments compiler k cancelled tool <+: s.workMoments compiler n cancelled tool := by
    rcases Nat.le_total k n with hle | hle
    · obtain ⟨j, rfl⟩ := Nat.exists_eq_add_of_le hle
      exact Running.passesMoments_prefix k j
    · obtain ⟨j, rfl⟩ := Nat.exists_eq_add_of_le hle
      rw [Session.workMoments, Running.passesMoments_eq hreturns]
      exact List.prefix_rfl
  intro m hm request hrequest
  unfold Session.buildMoments at hm
  rcases List.mem_cons.mp hm with rfl | hm
  · cases hrequest
  rcases List.mem_append.mp hm with hm | hm
  · exact hreads m (hwork.subset hm) request hrequest
  · split at hm
    next => cases hm
    next =>
      cases List.mem_singleton.mp hm
      cases hrequest
    next =>
      cases List.mem_singleton.mp hm
      cases hrequest

/-- A build with the line compiler, from any session and with any files queued that have numbers,
comes to an end if each source that it compiles is as it was at the start. No such build takes more
retries than it may; when it has taken them all it stops, and nothing comes after the last of
them but its end. -/
theorem build_returns (tree : FileTree) (htree : tree.Proper) {workspace : Workspace}
    (hworkspace : workspace.Made) (table : Table Classpath) (systemPrefixes : List String)
    (options : Options) (commands : List (Command σ τ)) (cancelled : Bool) :
    let reached := (Session.new tree workspace table systemPrefixes options).after commands
    reached.queue.Startable reached.workspace ∧
    ∀ queue : Queue, queue.Startable reached.workspace →
      let s := { reached with queue }
      ((∀ n, ∀ m ∈ s.buildMoments lineCompiler n cancelled (), m.ReadsAs s.tree) →
        ∃ n report s' tool',
          s.build lineCompiler n cancelled () = some (.ok (report, s', tool'))) ∧
      ∀ n,
        let moments := s.buildMoments lineCompiler n cancelled ()
        moments.countP Moment.retried ≤ max 1 options.maxErrorCount ∧
          (moments.countP Moment.retried = max 1 options.maxErrorCount →
            ∃ report s' tool' earlier m last,
              s.build lineCompiler n cancelled () = some (.ok (report, s', tool')) ∧
              report.outcome.interrupted = true ∧ moments = earlier ++ [m, last] ∧
              m.retried = true ∧ last.happening = .finished) := by
  intro reached
  have hsound : Sound .idle reached :=
    after_sound tree workspace table systemPrefixes options commands
  have horderly : Orderly .idle reached :=
    after_orderly tree hworkspace.named table systemPrefixes options commands
  obtain ⟨q, hchain⟩ :=
    history_chain (Session.new tree workspace table systemPrefixes options) commands
  refine ⟨⟨horderly.nodup, fun file hfile => hsound.numbered file (Queue.mem_files.mp hfile)⟩, ?_⟩
  intro queue hqueue s
  refine ⟨fun hreads => ?_, fun n => ?_⟩
  · have hs : Sound .idle s :=
      ⟨hsound.consistent, fun file hfile => hqueue.2 file (Queue.mem_files.mpr hfile),
        hsound.dependent, by simp⟩
    have hready := ready_start hs (hworkspace.named.grows hchain.grows) (hchain.proper htree)
      hqueue.1 cancelled
    have hnumbered : ∀ file ∈ Finset.range s.workspace.files.paths.length,
        ∃ path, s.workspace.files.path? file = some path := fun file hfile =>
      ⟨_, List.getElem?_eq_getElem (Finset.mem_range.mp hfile)⟩
    obtain ⟨n, r, hreturn⟩ := passes_return hready hnumbered fun n m hm =>
      hreads n m (List.mem_cons_of_mem _ (List.mem_append_left _ hm))
    refine ⟨n, r.finish.1, r.finish.2, r.tool, ?_⟩
    rw [Session.build, hreturn]
    rfl
  · have hoptions : s.options = options := after_options _ commands
    have hretries := build_retries lineCompiler n cancelled s ()
    rw [Options.retryLimit, hoptions] at hretries
    exact hretries

/-- Two files that refer to each other. -/
def circular : List (Command Unit Unit) :=
  [.event (.write ⟨"src/A.java"⟩ "uses B".toUTF8.toList), .event (.markDirty ⟨"src/A.java"⟩),
    .event (.write ⟨"src/B.java"⟩ "uses A".toUTF8.toList), .event (.markDirty ⟨"src/B.java"⟩)]

theorem circular_build_stops :
    let project : Project := { name := "app", sourceRoot := ⟨"src"⟩, buildRoot := ⟨"out"⟩ }
    let s := (Session.new {} { projects := ⟨[("app", project)]⟩ }
      { finder := ⟨project.ownClasspath, .empty⟩ } [] { maxErrorCount := 3 }).after circular
    s.queue.Startable s.workspace ∧
      (∀ n, ∀ m ∈ s.buildMoments lineCompiler n false (), m.ReadsAs s.tree) ∧
      (∃ n report s' tool', s.build lineCompiler n false () = some (.ok (report, s', tool'))) ∧
      (s.buildMoments lineCompiler 2 false ()).countP Moment.retried = 3 ∧
      ∃ report s' tool', s.build lineCompiler 2 false () = some (.ok (report, s', tool')) ∧
        report.outcome.interrupted = true := by
  intro project s
  have hmade : Workspace.Made { projects := ⟨[("app", project)]⟩ } :=
    .addProject (.empty "java" "class") (p := project) rfl
  have hwork : (Running.passes lineCompiler 2 { session := s.start false, tool := () }).isSome ∧
      (∀ m ∈ s.workMoments lineCompiler 2 false (), m.ReadsAs s.tree) ∧
      (s.buildMoments lineCompiler 2 false ()).countP Moment.retried = 3 := by
    decide +kernel
  obtain ⟨hreturns, hwork, hcount⟩ := hwork
  have hreads := readsAs_of_returns hreturns hwork
  have hall := build_returns {} .empty hmade { finder := ⟨project.ownClasspath, .empty⟩ } []
    { maxErrorCount := 3 } circular false
  change s.queue.Startable s.workspace ∧ ∀ queue : Queue, queue.Startable s.workspace →
    let t := { s with queue }
    ((∀ n, ∀ m ∈ t.buildMoments lineCompiler n false (), m.ReadsAs t.tree) →
      ∃ n report s' tool', t.build lineCompiler n false () = some (.ok (report, s', tool'))) ∧
    ∀ n, (t.buildMoments lineCompiler n false ()).countP Moment.retried ≤ 3 ∧
      ((t.buildMoments lineCompiler n false ()).countP Moment.retried = 3 →
        ∃ report s' tool' earlier m last,
          t.build lineCompiler n false () = some (.ok (report, s', tool')) ∧
          report.outcome.interrupted = true ∧
          t.buildMoments lineCompiler n false () = earlier ++ [m, last] ∧ _) at hall
  clear_value s
  obtain ⟨hstartable, hbuild⟩ := hall
  obtain ⟨hreturn, hretries⟩ := hbuild s.queue hstartable
  obtain ⟨report, s', tool', -, -, -, hstop, hinterrupted, -⟩ := (hretries 2).2 hcount
  exact ⟨hstartable, hreads, hreturn hreads, hcount, report, s', tool', hstop, hinterrupted⟩

end Rebuild.Build
