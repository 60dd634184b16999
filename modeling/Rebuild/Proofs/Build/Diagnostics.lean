import Mathlib
import Rebuild.Proofs.Build.Records

/-! What a build shows of a file. Main statement: the diagnostics of a file are those of the
compiler's last answer for it, whichever way the build ended, and the old ones if it was not
compiled. -/
namespace Rebuild.Build

variable {σ τ : Type} {file : FileId}

/-! ## What is stored -/

namespace Session

variable (s : Session τ)

theorem diagnostics_evictSource (p : Path) : (s.evictSource p).diagnostics = s.diagnostics := by
  obtain ⟨table, htable⟩ := s.evictSource_eq p
  rw [htable]

theorem diagnostics_markEach (files : List Path) :
    (s.markEach files).diagnostics = s.diagnostics :=
  markEach_induction (P := fun t => t.diagnostics = s.diagnostics) rfl fun _ _ _ ht => ht

theorem diagnostics_removeFile (p : Path) :
    (s.removeFile p).2.diagnostics = s.diagnostics.erase (s.register p).1 :=
  congrArg (Dict.erase · (s.register p).1) (diagnostics_evictSource _ p)

/-- No event but the removal of a file touches its diagnostics. -/
theorem diagnostics_apply {e : Event} (h : ∀ p, e = .removeFile p → (s.register p).1 ≠ file) :
    (s.apply e).diagnostics.get? file = s.diagnostics.get? file := by
  cases e with
  | markAllDirty => exact congrArg (Dict.get? · file) (s.diagnostics_markEach _)
  | removeFile p =>
    change (s.removeFile p).2.diagnostics.get? file = _
    rw [diagnostics_removeFile, Dict.get?_erase, if_neg (h p rfl)]
  | _ => rfl

theorem diagnostics_learn (file : FileId) (p : Path) (project : String) (output : CompileOutput) :
    (s.learn file p project output).2.diagnostics = s.diagnostics := by
  obtain ⟨tree, table, artifacts, read, hlearn⟩ := s.learn_eq p file project output
  rw [hlearn]

theorem diagnostics_acceptSuccess (file : FileId) (p : Path) (project : String)
    (output : CompileOutput) :
    (s.acceptSuccess file p project output).diagnostics =
      (s.setDiagnostics file output.diagnostics).diagnostics := by
  have hlearn := s.diagnostics_learn file p project output
  rcases hresult : s.learn file p project output with ⟨update, t⟩
  rw [hresult] at hlearn
  change t.diagnostics = s.diagnostics at hlearn
  simp only [acceptSuccess, hresult, setDiagnostics]
  split <;> rw [hlearn]

/-- What an answer stores: a failed call that is to be tried again stores nothing, and a success
only what is said of a file that was not removed meanwhile. -/
theorem diagnostics_settle (request : CompileRequest) (output : CompileOutput) :
    (s.settle request output).diagnostics =
      match output.status with
      | .success => if s.queue.contains request.file
        then (s.setDiagnostics request.file output.diagnostics).diagnostics else s.diagnostics
      | .retryable => s.diagnostics
      | .fatal => s.diagnostics.put request.file output.diagnostics := by
  unfold settle
  cases output.status with
  | success =>
    simp only [onSuccess]
    split
    next => exact s.diagnostics_acceptSuccess _ _ _ _
    next => rfl
  | retryable => rfl
  | fatal => rfl

theorem get?_setDiagnostics (file g : FileId) (found : List Diagnostic) :
    (s.setDiagnostics file found).diagnostics.get? g =
      if file = g then if found.isEmpty then none else some found else s.diagnostics.get? g := by
  unfold setDiagnostics
  cases found.isEmpty <;> simp

theorem diagnosticsOf_setDiagnostics (file : FileId) (found : List Diagnostic) :
    (s.setDiagnostics file found).diagnosticsOf file = found := by
  unfold diagnosticsOf
  rw [get?_setDiagnostics, if_pos rfl]
  cases found <;> rfl

theorem diagnostics_settle_of_ne {request : CompileRequest} (h : request.file ≠ file)
    (output : CompileOutput) :
    (s.settle request output).diagnostics.get? file = s.diagnostics.get? file := by
  rw [diagnostics_settle]
  cases output.status with
  | success =>
    simp only
    split
    · rw [get?_setDiagnostics, if_neg h]
    · rfl
  | retryable => rfl
  | fatal => simp [h]

end Session

/-- A request changes the workspace alone, where the class path may be kept. -/
theorem Session.request_session {s t : Session τ} {request : CompileRequest}
    (h : s.request file = .ok (some (request, t))) : t = { s with workspace := t.workspace } := by
  unfold Session.request at h
  split at h
  next => cases h
  next =>
    split at h
    next => cases h
    next =>
      split at h
      next => cases h
      next =>
        cases h
        rfl

/-! ## The last answer -/

/-- What the compiler answers for a file. -/
def Moment.answer? (file : FileId) (m : Moment τ) : Option CompileOutput :=
  match m.happening with
  | .settled request output => if request.file = file then some output else none
  | _ => none

/-- The last answer of the compiler for a file. -/
def lastAnswer? (file : FileId) (moments : List (Moment τ)) : Option CompileOutput :=
  (moments.filterMap (Moment.answer? file)).getLast?

@[simp] theorem lastAnswer?_nil : lastAnswer? file ([] : List (Moment τ)) = none := rfl

theorem lastAnswer?_append (moments more : List (Moment τ)) :
    lastAnswer? file (moments ++ more) = (lastAnswer? file more).or (lastAnswer? file moments) := by
  unfold lastAnswer?
  rw [List.filterMap_append, List.getLast?_append]

theorem lastAnswer?_singleton (m : Moment τ) : lastAnswer? file [m] = m.answer? file := by
  unfold lastAnswer?
  cases h : m.answer? file <;> simp [h]

/-- What another moment adds. -/
theorem lastAnswer?_concat (seen : List (Moment τ)) (m : Moment τ) :
    lastAnswer? file (seen ++ [m]) = (m.answer? file).or (lastAnswer? file seen) := by
  rw [lastAnswer?_append, lastAnswer?_singleton]

theorem lastAnswer?_cons {m : Moment τ} (h : m.answer? file = none) (moments : List (Moment τ)) :
    lastAnswer? file (m :: moments) = lastAnswer? file moments := by
  change lastAnswer? file ([m] ++ moments) = _
  rw [lastAnswer?_append, lastAnswer?_singleton, h, Option.or_none]

theorem lastAnswer?_eventMoments (s : Session τ) (events : List Event) :
    lastAnswer? file (s.eventMoments events) = none := by
  induction events generalizing s with
  | nil => rfl
  | cons e rest ih => exact (lastAnswer?_cons rfl _).trans (ih (s.apply e))

/-- What is kept of an answer until the build ends. -/
def CompileOutput.kept? (output : CompileOutput) : Option (List Diagnostic) :=
  if output.status = .retryable then some output.diagnostics else none

/-! ## Diagnostics of calls that are to be tried again -/

namespace Running

variable {compiler : Compiler σ τ} {r u v : Running σ τ} {moments more : List (Moment τ)}

/-- A relation between the states of a build that can be put together from its compilations. -/
structure Composes (compiler : Compiler σ τ)
    (P : Running σ τ → List (Moment τ) → Running σ τ → Prop) : Prop where
  refl : ∀ r, P r [] r
  stop : ∀ r, P r [] { r with interrupted := true }
  trans : ∀ {r u v moments more}, P r moments u → P u more v → P r (moments ++ more) v
  file : ∀ {r u : Running σ τ} {file}, r.session.queue.isDue file →
    ({ r with session := r.session.take file } : Running σ τ).compileFile compiler file = .ok u →
    P r (⟨.taken file, r.session, r.session.take file⟩ ::
      ({ r with session := r.session.take file } : Running σ τ).compileMoments compiler file) u

namespace Composes

variable {P : Running σ τ → List (Moment τ) → Running σ τ → Prop}

theorem pass (hP : Composes compiler P) {order : List FileId} {r u : Running σ τ}
    (h : Running.pass compiler order r = .ok u) : P r (r.passMoments compiler order) u := by
  induction order generalizing r with
  | nil =>
    cases h
    exact hP.refl _
  | cons file rest ih =>
    unfold Running.pass at h
    unfold passMoments
    split at h
    next hcancelled =>
      cases h
      rw [if_pos hcancelled]
      exact hP.stop r
    next hcancelled =>
      rw [if_neg hcancelled]
      split at h
      next hdue =>
        rw [if_pos hdue]
        split at h
        next => cases h
        next v hv =>
          have hfirst := hP.file hdue hv
          simp only [hv]
          split at h
          next hinterrupted =>
            cases h
            rw [if_pos hinterrupted, List.append_nil]
            exact hfirst
          next hinterrupted =>
            rw [if_neg hinterrupted]
            exact hP.trans hfirst (ih h)
      next hdue =>
        rw [if_neg hdue]
        exact ih h

theorem passes (hP : Composes compiler P) {n : Nat} {r u : Running σ τ}
    (h : Running.passes compiler n r = some (.ok u)) : P r (r.passesMoments compiler n) u := by
  induction n generalizing r with
  | zero => cases h
  | succ n ih =>
    rcases hrunnable : r.session.queue.runnable with _ | ⟨first, others⟩
    · simp only [Running.passes, hrunnable] at h
      simp only [passesMoments, hrunnable]
      cases h
      exact hP.refl _
    rcases horder : plan r.session (first :: others) with e | order
    · simp only [Running.passes, hrunnable, horder] at h
      cases h
    rcases hv : Running.pass compiler order r with e | v
    · simp only [Running.passes, hrunnable, horder, hv] at h
      cases h
    have hfirst := hP.pass hv
    simp only [Running.passes, hrunnable, horder, hv] at h
    simp only [passesMoments, hrunnable, horder, hv]
    split_ifs at h ⊢ with hinterrupted
    · cases h
      rw [List.append_nil]
      exact hfirst
    · exact hP.trans hfirst (ih h)

end Composes

/-- The diagnostics that are kept after a part of a build are those of the last answers. -/
structure Keeps (r : Running σ τ) (moments : List (Moment τ)) (u : Running σ τ) : Prop where
  nodup : r.retryDiagnostics.keys.Nodup → u.retryDiagnostics.keys.Nodup
  get? : ∀ file, u.retryDiagnostics.get? file =
    ((lastAnswer? file moments).map CompileOutput.kept?).getD (r.retryDiagnostics.get? file)

theorem Keeps.of_eq (h : u.retryDiagnostics = r.retryDiagnostics)
    (hmoments : ∀ file, lastAnswer? file moments = none) : Keeps r moments u := by
  refine ⟨fun hnodup => h ▸ hnodup, fun file => ?_⟩
  rw [hmoments, h]
  rfl

theorem Keeps.trans (h : Keeps r moments u) (hmore : Keeps u more v) :
    Keeps r (moments ++ more) v := by
  refine ⟨fun hnodup => hmore.nodup (h.nodup hnodup), fun file => ?_⟩
  rw [hmore.get?, h.get?, lastAnswer?_append]
  cases lastAnswer? file more <;> rfl

theorem nodup_keys_erase {d : Dict FileId (List Diagnostic)} (h : d.keys.Nodup) (file : FileId) :
    (d.erase file).keys.Nodup := by
  rw [Dict.keys_erase]
  exact h.filter _

theorem settle_retryDiagnostics (r : Running σ τ) (request : CompileRequest)
    (output : CompileOutput) : (r.settle request output).retryDiagnostics =
      if output.status = .retryable then r.retryDiagnostics.put request.file output.diagnostics
      else r.retryDiagnostics.erase request.file := by
  unfold settle
  cases output.status <;> rfl

theorem call_keeps (r : Running σ τ) (request : CompileRequest) (opened : Session τ) :
    Keeps r (r.callMoments compiler request opened)
      ({ r with session := opened }.call compiler request) := by
  let result := compiler.compile request opened r.tool
  have hcall : (({ r with session := opened } : Running σ τ).call compiler
      request).retryDiagnostics = if result.output.status = .retryable
        then r.retryDiagnostics.put request.file result.output.diagnostics
        else r.retryDiagnostics.erase request.file :=
    settle_retryDiagnostics (({ r with session := opened } : Running σ τ).invoke compiler
      request).2 request result.output
  have hanswer (file : FileId) : lastAnswer? file (r.callMoments compiler request opened) =
      if request.file = file then some result.output else none := by
    unfold callMoments
    simp only
    rw [lastAnswer?_cons rfl, lastAnswer?_concat, lastAnswer?_eventMoments, Option.or_none]
    rfl
  refine ⟨fun hnodup => ?_, fun file => ?_⟩
  · rw [hcall]
    split
    · exact Dict.nodup_keys_put hnodup _ _
    · exact nodup_keys_erase hnodup _
  · rw [hcall, hanswer]
    unfold CompileOutput.kept?
    by_cases hfile : request.file = file <;> by_cases hretry : result.output.status = .retryable <;>
      simp [hfile, hretry]

theorem compileFile_keeps {file : FileId} (h : r.compileFile compiler file = .ok u) :
    Keeps r (r.compileMoments compiler file) u := by
  rcases hrequest : r.session.request file with e | _ | ⟨request, opened⟩
  · simp only [compileFile, hrequest] at h
    cases h
  · simp only [compileFile, hrequest] at h
    cases h
    simp only [compileMoments, hrequest]
    exact Keeps.of_eq rfl fun _ => lastAnswer?_cons rfl _
  · simp only [compileFile, hrequest] at h
    cases h
    simp only [compileMoments, hrequest]
    exact call_keeps r request opened

theorem passes_keeps {n : Nat} (h : passes compiler n r = some (.ok u)) :
    Keeps r (r.passesMoments compiler n) u := by
  have hcomposes : Composes compiler Keeps := by
    refine ⟨fun r => Keeps.of_eq rfl fun _ => rfl, fun r => Keeps.of_eq rfl fun _ => rfl,
      Keeps.trans, fun _ hfile => ?_⟩
    have hkeeps := compileFile_keeps hfile
    exact ⟨hkeeps.nodup, fun g => by rw [lastAnswer?_cons rfl]; exact hkeeps.get? g⟩
  exact hcomposes.passes h

/-- What is kept is shown for the files that stay queued. -/
theorem get?_foldl_show (entries : List (FileId × List Diagnostic)) (s : Session τ)
    (h : (entries.map Prod.fst).Nodup) (file : FileId) :
    (entries.foldl (fun s e => if s.queue.contains e.1
        then { s with diagnostics := s.diagnostics.put e.1 e.2 } else s) s).diagnostics.get? file =
      if s.queue.contains file then (Dict.find file entries).or (s.diagnostics.get? file)
      else s.diagnostics.get? file := by
  induction entries generalizing s with
  | nil => simp [Dict.find]
  | cons e rest ih =>
    obtain ⟨g, found⟩ := e
    rw [List.map_cons, List.nodup_cons] at h
    rw [List.foldl_cons]
    by_cases hg : s.queue.contains g
    · rw [if_pos hg, ih _ h.2]
      by_cases hfile : g = file
      · subst hfile
        have hrest : Dict.find g rest = none := by
          have hkeys := Dict.mem_keys_iff ⟨rest⟩ g
          rw [← Option.not_isSome_iff_eq_none]
          exact fun hsome => h.1 (hkeys.mpr hsome)
        simp [hg, hrest, Dict.find]
      · simp [hfile, Dict.find]
    · rw [if_neg hg, ih _ h.2]
      by_cases hfile : g = file
      · subst hfile
        simp [hg]
      · simp [hfile, Dict.find]

/-- An interrupted build shows what it kept of the files that stay queued. -/
theorem get?_showRetries (h : r.retryDiagnostics.keys.Nodup) (file : FileId) :
    r.showRetries.diagnostics.get? file =
      if r.interrupted ∧ r.session.queue.contains file
      then (r.retryDiagnostics.get? file).or (r.session.diagnostics.get? file)
      else r.session.diagnostics.get? file := by
  unfold showRetries
  by_cases hinterrupted : r.interrupted
  · simp only [hinterrupted, ↓reduceIte, true_and]
    exact get?_foldl_show r.retryDiagnostics.entries r.session h file
  · simp [hinterrupted]

end Running

/-! ## What is shown while a build goes on -/

/-- The file that is being compiled, or about to be. -/
def Phase.file? : Phase → Option FileId
  | .opening file => some file
  | .compiling request => some request.file
  | .idle | .building => none

/-- The file waits to be compiled or is being compiled. -/
def Queue.Awaits (q : Queue) (file : FileId) : Prop :=
  ∃ state, q.state? file = some state ∧ state ≠ .failed

namespace Queue.Awaits

variable {q : Queue} {g : FileId}

theorem contains (h : q.Awaits file) : q.contains file := by
  obtain ⟨state, hstate, -⟩ := h
  exact (Queue.contains_iff q file).mpr ⟨state, hstate⟩

theorem runnable_ne_nil (h : q.Awaits file) : q.runnable ≠ [] := by
  obtain ⟨state, hstate, hne⟩ := h
  have hmem : file ∈ q.runnable := List.mem_map.mpr
    ⟨_, List.mem_filter.mpr ⟨Dict.mem_entries_of_get? hstate, by simpa using hne⟩, rfl⟩
  exact List.ne_nil_of_mem hmem

theorem congr {q' : Queue} (h : q.Awaits file) (hstate : q'.state? file = q.state? file) :
    q'.Awaits file := by
  unfold Queue.Awaits
  rw [hstate]
  exact h

theorem of_isDue (h : q.isDue file) : q.Awaits file := by
  rcases (Queue.isDue_iff q file).mp h with hstate | hstate
  · exact ⟨_, hstate, by decide⟩
  · exact ⟨_, hstate, by decide⟩

theorem enqueue (h : q.Awaits file) (g : FileId) : (q.enqueue g).Awaits file := by
  by_cases hg : g = file
  · subst hg
    exact of_isDue (Queue.isDue_enqueue q g)
  · exact h.congr (by rw [Queue.state?_enqueue, if_neg hg])

theorem enqueueAll (h : q.Awaits file) (files : List FileId) : (q.enqueueAll files).Awaits file := by
  induction files generalizing q with
  | nil => exact h
  | cons g rest ih => exact ih (h.enqueue g)

theorem remove (h : q.Awaits file) (hg : g ≠ file) : (q.remove g).Awaits file :=
  h.congr (by rw [Queue.state?_remove, if_neg hg])

theorem setState (h : q.Awaits file) (g : FileId) {state : EntryState} (hstate : state ≠ .failed) :
    (q.setState g state).Awaits file := by
  by_cases hg : g = file
  · obtain ⟨old, hold, -⟩ := h
    exact ⟨state, by rw [Queue.state?_setState, if_pos hg, hold]; rfl, hstate⟩
  · exact h.congr (by rw [Queue.state?_setState, if_neg hg])

theorem apply {s : Session τ} (h : s.queue.Awaits file) {e : Event}
    (hremoves : ∀ p, e = .removeFile p → (s.register p).1 ≠ file) :
    (s.apply e).queue.Awaits file := by
  cases e with
  | markDirty p => exact h.enqueue _
  | markAllDirty =>
    exact Session.markEach_induction (P := fun t => t.queue.Awaits file) h
      fun _ _ _ ht => ht.enqueue _
  | removeFile p =>
    change (s.removeFile p).2.queue.Awaits file
    rw [(s.removeFile_eq p).2.2.1]
    exact (h.remove (hremoves p rfl)).enqueueAll _
  | _ => exact h

end Queue.Awaits

def Phase.Compiles (p : Phase) (file : FileId) : Prop :=
  ∃ request, p = .compiling request ∧ request.file = file

/-- What is known of a file after some moments of a build that began with `start`, none of which
removed it. The last answer is shown, but for one that asks to try again: then the file waits. -/
structure Reflects (file : FileId) (start : Session τ) (seen : List (Moment τ)) (p : Phase)
    (s : Session τ) : Prop where
  called : file ∈ calledFiles seen ↔ (lastAnswer? file seen).isSome ∨ p.Compiles file
  project : file ∈ calledFiles seen → s.workspace.InProject file
  unanswered : lastAnswer? file seen = none →
    s.diagnostics.get? file = start.diagnostics.get? file
  answered : ∀ output, lastAnswer? file seen = some output → output.status ≠ .retryable →
    s.diagnosticsOf file = output.diagnostics ∧
      (output.status = .success → output.diagnostics = [] → s.diagnostics.get? file = none)
  awaits : p.file? = some file ∨
      (∃ output, lastAnswer? file seen = some output ∧ output.status = .retryable) →
    s.queue.Awaits file

theorem mem_calledFiles_concat {seen : List (Moment τ)} {m : Moment τ} :
    file ∈ calledFiles (seen ++ [m]) ↔ file ∈ calledFiles seen ∨ m.Calls file := by
  simp only [mem_calledFiles, List.mem_append, List.mem_singleton, or_and_right, exists_or,
    exists_eq_left]

namespace Reflects

variable {start s : Session τ} {seen : List (Moment τ)} {p q : Phase} {m : Moment τ}

/-- A moment that neither calls the compiler for the file nor answers for it. -/
theorem keep (h : Reflects file start seen p m.before) (hanswer : m.answer? file = none)
    (hcalls : ¬ m.Calls file) (hgrows : m.before.workspace.Grows m.after.workspace)
    (hdiagnostics : m.after.diagnostics.get? file = m.before.diagnostics.get? file)
    (hphase : q.Compiles file ↔ p.Compiles file)
    (hawaits : q.file? = some file ∨
        (∃ output, lastAnswer? file seen = some output ∧ output.status = .retryable) →
      m.after.queue.Awaits file) :
    Reflects file start (seen ++ [m]) q m.after := by
  have hcalled : file ∈ calledFiles (seen ++ [m]) ↔ file ∈ calledFiles seen := by
    rw [mem_calledFiles_concat, or_iff_left hcalls]
  have hlast : lastAnswer? file (seen ++ [m]) = lastAnswer? file seen := by
    rw [lastAnswer?_concat, hanswer, Option.none_or]
  refine ⟨?_, fun hmem => ?_, ?_, ?_, ?_⟩
  · rw [hcalled, hlast, hphase]
    exact h.called
  · exact (h.project (hcalled.mp hmem)).grows hgrows
  · rw [hlast, hdiagnostics]
    exact h.unanswered
  · unfold Session.diagnosticsOf
    rw [hlast, hdiagnostics]
    exact h.answered
  · rw [hlast]
    exact hawaits

theorem called_of_answered (h : Reflects file start seen p m.before)
    (hretry : ∃ output, lastAnswer? file seen = some output ∧ output.status = .retryable) :
    file ∈ calledFiles seen := by
  obtain ⟨output, houtput, -⟩ := hretry
  exact h.called.mpr (.inl (by rw [houtput]; rfl))

theorem call {s t : Session τ} {request : CompileRequest}
    (h : Reflects request.file start seen (.opening request.file) s)
    (hproject : s.workspace.InProject request.file) (hgrows : s.workspace.Grows t.workspace)
    (hdiagnostics : t.diagnostics.get? request.file = s.diagnostics.get? request.file)
    (hawaits : t.queue.Awaits request.file) :
    Reflects request.file start (seen ++ [⟨.called request, s, t⟩]) (.compiling request) t := by
  have hlast : lastAnswer? request.file (seen ++ [⟨.called request, s, t⟩]) =
      lastAnswer? request.file seen := by
    rw [lastAnswer?_concat]
    exact Option.none_or
  refine ⟨?_, fun _ => hproject.grows hgrows, ?_, ?_, fun _ => hawaits⟩
  · refine iff_of_true ?_ (.inr ⟨request, rfl, rfl⟩)
    exact mem_calledFiles_concat.mpr (.inr rfl)
  · rw [hlast, hdiagnostics]
    exact h.unanswered
  · unfold Session.diagnosticsOf
    rw [hlast, hdiagnostics]
    exact h.answered

/-- The answer for the file. It is queued, since it was not removed. -/
theorem settle {s : Session τ} {request : CompileRequest}
    (h : Reflects request.file start seen (.compiling request) s) (output : CompileOutput) :
    Reflects request.file start
      (seen ++ [⟨.settled request output, s, s.settle request output⟩]) .building
      (s.settle request output) := by
  let m : Moment τ := ⟨.settled request output, s, s.settle request output⟩
  have hawaits : s.queue.Awaits request.file := h.awaits (.inl rfl)
  have hlast : lastAnswer? request.file (seen ++ [m]) = some output := by
    rw [lastAnswer?_concat]
    simp [m, Moment.answer?]
  have hcalled : request.file ∈ calledFiles seen := h.called.mpr (.inr ⟨request, rfl, rfl⟩)
  have hdiagnostics := s.diagnostics_settle request output
  refine ⟨?_, fun _ => ?_, ?_, ?_, ?_⟩
  · rw [mem_calledFiles_concat, hlast]
    simp [hcalled]
  · exact (h.project hcalled).grows (s.settle_grows request output)
  · rw [hlast]
    intro hnone
    cases hnone
  · intro answer hanswer hne
    obtain rfl : output = answer := Option.some.inj (hlast.symm.trans hanswer)
    rcases hstatus : output.status with _ | _ | _
    · simp only [hstatus, hawaits.contains, ↓reduceIte] at hdiagnostics
      unfold Session.diagnosticsOf
      rw [hdiagnostics]
      refine ⟨s.diagnosticsOf_setDiagnostics _ _, fun _ hempty => ?_⟩
      rw [Session.get?_setDiagnostics, hempty]
      simp
    · exact absurd hstatus hne
    · simp only [hstatus] at hdiagnostics
      unfold Session.diagnosticsOf
      rw [hdiagnostics, Dict.get?_put, if_pos rfl]
      exact ⟨rfl, fun hsuccess => by cases hsuccess⟩
  · rintro (hphase | ⟨answer, hanswer, hretry⟩)
    · cases hphase
    obtain rfl : output = answer := Option.some.inj (hlast.symm.trans hanswer)
    rw [s.settle_queue]
    apply Queue.Awaits.enqueueAll
    have hstate := s.queue.state?_settled request.file request.file output.status
    by_cases hcompiling : s.queue.state? request.file = some .compiling
    · rw [if_pos ⟨rfl, hcompiling⟩, hretry] at hstate
      exact ⟨.retrying, hretry ▸ hstate, by decide⟩
    · rw [if_neg fun hboth => hcompiling hboth.2] at hstate
      exact hawaits.congr hstate

theorem step (h : Reflects file start seen p m.before) (hm : Work p m q)
    (hremoves : ¬ m.Removes file) : Reflects file start (seen ++ [m]) q m.after := by
  have hgrows := hm.grows
  cases hm with
  | @taken s g hdue =>
    refine h.keep rfl (by simp [Moment.Calls, Moment.called?]) hgrows rfl
      (by simp [Phase.Compiles]) fun hfile => ?_
    have hbefore : s.queue.Awaits file := by
      rcases hfile with hg | hretry
      · obtain rfl : g = file := Option.some.inj hg
        exact .of_isDue hdue
      · exact h.awaits (.inr hretry)
    exact hbefore.setState g (by decide)
  | @dropped s g hnone =>
    refine h.keep rfl (by simp [Moment.Calls, Moment.called?]) hgrows rfl
      (by simp [Phase.Compiles]) fun hfile => ?_
    have hretry := hfile.resolve_left (by simp [Phase.file?])
    have hg : g ≠ file := fun hg =>
      Session.request_eq_none hnone (hg ▸ h.project (h.called_of_answered hretry))
    exact (h.awaits (.inr hretry)).remove hg
  | @called s t g request hsome =>
    obtain ⟨rfl, hproject, -, hqueue, -⟩ := Session.request_eq_some hsome
    have hdiagnostics : t.diagnostics.get? file = s.diagnostics.get? file := by
      rw [Session.request_session hsome]
    have hawaits (hfile : request.file = file ∨ ∃ output, lastAnswer? file seen = some output ∧
        output.status = .retryable) : t.queue.Awaits file := by
      rw [hqueue]
      exact h.awaits (hfile.imp_left fun hg => congrArg some hg)
    by_cases hfile : request.file = file
    · subst hfile
      exact h.call hproject hgrows hdiagnostics (hawaits (.inl rfl))
    · exact h.keep rfl (by simpa [Moment.Calls, Moment.called?] using hfile) hgrows hdiagnostics
        (by simp [Phase.Compiles, hfile])
        fun hphase => hawaits (hphase.imp_left fun hg => Option.some.inj hg)
  | event request s e =>
    have hremoves (path : Path) (he : e = .removeFile path) : (s.register path).1 ≠ file :=
      fun hfile => hremoves ⟨path, by rw [he], hfile⟩
    refine h.keep rfl (by simp [Moment.Calls, Moment.called?]) hgrows
      (s.diagnostics_apply hremoves) Iff.rfl fun hfile => ?_
    exact (h.awaits hfile).apply hremoves
  | settled request s output =>
    by_cases hfile : request.file = file
    · subst hfile
      exact h.settle output
    · refine h.keep (by simp [Moment.answer?, hfile]) (by simp [Moment.Calls, Moment.called?]) hgrows
        (s.diagnostics_settle_of_ne hfile output) (by simp [Phase.Compiles, hfile])
        fun hretry => ?_
      have hbefore := h.awaits (.inr (hretry.resolve_left (by simp [Phase.file?])))
      rw [s.settle_queue]
      refine (hbefore.congr ?_).enqueueAll _
      rw [Queue.state?_settled, if_neg fun hboth => hfile hboth.1]

theorem chain {t : Session τ} {moments : List (Moment τ)} (h : Reflects file s [] p s)
    (hchain : Chain Work p s moments q t) (hremoves : ∀ m ∈ moments, ¬ m.Removes file) :
    Reflects file s moments q t :=
  (hchain.restrict hremoves).invariant (I := fun seen p t => Reflects file s seen p t)
    (fun hm h => h.step hm.1 hm.2) [] h

theorem new (file : FileId) (s : Session τ) : Reflects file s [] .building s := by
  refine ⟨?_, ?_, fun _ => rfl, ?_, ?_⟩ <;> simp [calledFiles, Phase.Compiles, Phase.file?]

end Reflects

/-! ## Builds -/

variable {compiler : Compiler σ τ} {n : Nat} {cancelled : Bool} {s s' : Session τ} {tool tool' : σ}
  {report : Report}

/-- The state in which a build that returns came to its end. -/
theorem passes_of_build
    (h : s.build compiler n cancelled tool = some (.ok (report, s', tool'))) :
    ∃ r : Running σ τ, Running.passes compiler n { session := s.start cancelled, tool } =
      some (.ok r) ∧ report = r.finish.1 ∧ s' = r.finish.2 := by
  unfold Session.build at h
  rcases hresult : Running.passes compiler n { session := s.start cancelled, tool } with _ | e | r
  · rw [hresult] at h
    cases h
  · rw [hresult] at h
    cases h
  · rw [hresult] at h
    cases h
    exact ⟨r, rfl, rfl, rfl⟩

/-- What the end of a build shows: the diagnostics of the last answer, if the file stays queued
after one that asks to try again, and otherwise what was shown before. -/
theorem get?_finish {r : Running σ τ}
    (h : Running.passes compiler n { session := s.start cancelled, tool } = some (.ok r))
    (file : FileId) :
    r.finish.2.diagnostics.get? file =
      if r.interrupted ∧ r.session.queue.contains file
      then ((lastAnswer? file (s.workMoments compiler n cancelled tool)).bind
        CompileOutput.kept?).or (r.session.diagnostics.get? file)
      else r.session.diagnostics.get? file := by
  have hkeeps := Running.passes_keeps h
  have hkept : r.retryDiagnostics.get? file =
      (lastAnswer? file (s.workMoments compiler n cancelled tool)).bind CompileOutput.kept? := by
    rw [hkeeps.get?, Session.workMoments]
    cases lastAnswer? file _ <;> rfl
  rw [← hkept]
  exact Running.get?_showRetries (hkeeps.nodup List.nodup_nil) file

/-- However a build that returns ended, and whatever happened during it, a file that was compiled
and not removed shows the diagnostics of the last answer of the compiler for it. Nothing is stored
if it succeeded without any. One that was neither compiled nor removed shows what it showed. -/
theorem build_diagnostics (h : s.build compiler n cancelled tool = some (.ok (report, s', tool')))
    (hremoves : ∀ m ∈ s.workMoments compiler n cancelled tool, ¬ m.Removes file) :
    (file ∈ report.attempts.map Attempt.file →
      ∃ output, lastAnswer? file (s.workMoments compiler n cancelled tool) = some output ∧
        s'.diagnosticsOf file = output.diagnostics ∧
        (output.status = .success → output.diagnostics = [] →
          s'.diagnostics.get? file = none)) ∧
    (file ∉ report.attempts.map Attempt.file →
      s'.diagnostics.get? file = s.diagnostics.get? file) := by
  obtain ⟨r, hpasses, hreport, hs'⟩ := passes_of_build h
  have hends := Running.passes_ends compiler n { session := s.start cancelled, tool }
  rw [hpasses] at hends
  obtain ⟨hchain, hattempts⟩ : Running.Leads _ _ _ r := hends
  have hreflects := (Reflects.new file (s.start cancelled)).chain hchain hremoves
  have hshown := get?_finish hpasses file
  rw [← hs'] at hshown
  have hcalled : file ∈ report.attempts.map Attempt.file ↔
      (lastAnswer? file (s.workMoments compiler n cancelled tool)).isSome := by
    rw [hreport]
    change file ∈ r.attempts.map Attempt.file ↔ _
    rw [hattempts]
    refine hreflects.called.trans (or_iff_left ?_)
    rintro ⟨request, hphase, -⟩
    cases hphase
  rw [hcalled]
  refine ⟨fun hsome => ?_, fun hnone => ?_⟩
  · obtain ⟨output, houtput⟩ := Option.isSome_iff_exists.mp hsome
    rw [houtput] at hshown
    refine ⟨output, houtput, ?_⟩
    by_cases hretry : output.status = .retryable
    · -- the file waits, so that only an interrupted build ends, and that one shows what it kept
      have hawaits := hreflects.awaits (.inr ⟨output, houtput, hretry⟩)
      have hinterrupted : r.interrupted = true := by
        by_contra hrunning
        exact hawaits.runnable_ne_nil
          (Running.runnable_of_passes compiler hpasses (Bool.eq_false_iff.mpr hrunning))
      rw [if_pos ⟨hinterrupted, hawaits.contains⟩] at hshown
      have hkept : output.kept? = some output.diagnostics := if_pos hretry
      rw [Option.bind_some, hkept, Option.some_or] at hshown
      refine ⟨?_, fun hsuccess => absurd (hretry.symm.trans hsuccess) (by decide)⟩
      unfold Session.diagnosticsOf
      rw [hshown]
      rfl
    · have hkept : output.kept? = none := if_neg hretry
      rw [Option.bind_some, hkept, Option.none_or, ite_self] at hshown
      unfold Session.diagnosticsOf
      rw [hshown]
      exact hreflects.answered output houtput hretry
  · rw [Option.not_isSome_iff_eq_none] at hnone
    rw [hnone, Option.bind_none, Option.none_or, ite_self] at hshown
    exact hshown.trans (hreflects.unanswered hnone)

/-- Two retries end a build, and one of two files waits for the other, which is at fault. -/
def blocked : Session Unit :=
  ({ Session.sample with options := { maxErrorCount := 2 } }).applyAll
    [.write ⟨"src/A.java"⟩ "uses B".toUTF8.toList, .markDirty ⟨"src/A.java"⟩,
      .write ⟨"src/B.java"⟩ "error broken".toUTF8.toList, .markDirty ⟨"src/B.java"⟩]

theorem blocked_file_shows_retry :
    ∃ report s' tool', blocked.build lineCompiler 3 false () = some (.ok (report, s', tool')) ∧
      report.outcome.interrupted = true ∧
      (s'.diagnosticsOf 0).map Diagnostic.message = ["cannot find symbol B"] ∧
      (s'.diagnosticsOf 1).map Diagnostic.message = ["broken"] ∧
      s'.diagnostics.get? 2 = blocked.diagnostics.get? 2 := by
  have hruns : ((blocked.build lineCompiler 3 false ()).bind Except.toOption).any
      (fun (report, _) => report.outcome.interrupted ∧
        report.attempts.map Attempt.file = [0, 1, 0]) := by
    decide +kernel
  have hanswers : (∀ file ∈ [0, 1, 2], ∀ m ∈ blocked.workMoments lineCompiler 3 false (),
        ¬ m.Removes file) ∧
      [0, 1].map (fun file => (lastAnswer? file (blocked.workMoments lineCompiler 3 false ())).map
        fun output => output.diagnostics.map Diagnostic.message) =
        [some ["cannot find symbol B"], some ["broken"]] := by
    decide +kernel
  obtain ⟨⟨report, s', tool'⟩, hreturned, hfacts⟩ := (Option.any_eq_true _ _).mp hruns
  obtain ⟨result, hbuild, hresult⟩ := Option.bind_eq_some_iff.mp hreturned
  obtain rfl := eq_ok_of_toOption hresult
  obtain ⟨hinterrupted, hattempts⟩ := of_decide_eq_true hfacts
  obtain ⟨hkept, hmessages⟩ := hanswers
  obtain ⟨hA, hB⟩ := List.cons.inj hmessages
  obtain ⟨hB, -⟩ := List.cons.inj hB
  have hshown (file : FileId) {messages : List String} (hfile : file ∈ [0, 1])
      (hlast : (lastAnswer? file (blocked.workMoments lineCompiler 3 false ())).map
        (fun output => output.diagnostics.map Diagnostic.message) = some messages) :
      (s'.diagnosticsOf file).map Diagnostic.message = messages := by
    have hmem : file ∈ report.attempts.map Attempt.file := by
      rw [hattempts]
      exact List.mem_append_left [0] hfile
    obtain ⟨output, houtput, hdiagnostics, -⟩ :=
      (build_diagnostics hbuild (hkept file (List.mem_append_left [2] hfile))).1 hmem
    rw [houtput] at hlast
    rw [hdiagnostics]
    exact Option.some.inj hlast
  refine ⟨report, s', tool', hbuild, hinterrupted, hshown 0 (by decide) hA,
    hshown 1 (by decide) hB, ?_⟩
  exact (build_diagnostics hbuild (hkept 2 (by decide))).2 (by rw [hattempts]; decide)

end Rebuild.Build
