import Mathlib
import Rebuild.Proofs.Build.History

/-! The moments of a build lead, step by step, from the session that it starts with to the one that
it yields. They show the calls of the compiler that it reports. -/
namespace Rebuild.Build

variable {σ τ : Type}

/-! ## Calls of the compiler -/

theorem eventMoments_chain (request : CompileRequest) (s : Session τ) (events : List Event) :
    Chain Work (.compiling request) s (s.eventMoments events) (.compiling request)
      (s.applyAll events) := by
  induction events generalizing s with
  | nil => exact .nil _ s
  | cons e rest ih => exact Chain.cons (Work.event request s e) (ih (s.apply e))

theorem calledFiles_eventMoments (s : Session τ) (events : List Event) :
    calledFiles (s.eventMoments events) = [] := by
  induction events generalizing s with
  | nil => rfl
  | cons e rest ih => exact ih (s.apply e)

namespace Running

variable (compiler : Compiler σ τ)

theorem settle_session (r : Running σ τ) (request : CompileRequest) (output : CompileOutput) :
    (r.settle request output).session = r.session.settle request output := by
  unfold settle
  cases output.status <;> rfl

theorem settle_attempts (r : Running σ τ) (request : CompileRequest) (output : CompileOutput) :
    (r.settle request output).attempts = r.attempts := by
  unfold settle
  cases output.status <;> rfl

theorem call_session (r : Running σ τ) (request : CompileRequest) :
    (r.call compiler request).session =
      (r.session.applyAll (compiler.compile request r.session r.tool).events).settle request
        (compiler.compile request r.session r.tool).output :=
  settle_session (r.invoke compiler request).2 request _

theorem call_attempts (r : Running σ τ) (request : CompileRequest) :
    (r.call compiler request).attempts.map Attempt.file =
      r.attempts.map Attempt.file ++ [request.file] := by
  have hattempts := settle_attempts (r.invoke compiler request).2 request
    (r.invoke compiler request).1
  unfold call
  rw [hattempts, invoke, List.map_append]
  rfl

/-- Moments of a build lead from one of its states to another, and show the compiler's calls. -/
structure Leads (r : Running σ τ) (p : Phase) (moments : List (Moment τ)) (r' : Running σ τ) :
    Prop where
  chain : Chain Work p r.session moments .building r'.session
  attempts : r'.attempts.map Attempt.file = r.attempts.map Attempt.file ++ calledFiles moments

theorem Leads.refl (r : Running σ τ) : Leads r .building [] r :=
  ⟨.nil _ _, by simp [calledFiles]⟩

theorem Leads.trans {r u v : Running σ τ} {p : Phase} {moments more : List (Moment τ)}
    (h : Leads r p moments u) (hmore : Leads u .building more v) :
    Leads r p (moments ++ more) v := by
  refine ⟨h.chain.append hmore.chain, ?_⟩
  rw [hmore.attempts, h.attempts, calledFiles_append, List.append_assoc]

theorem leads_call (r : Running σ τ) {file : FileId} {request : CompileRequest}
    {opened : Session τ} (h : r.session.request file = .ok (some (request, opened))) :
    Leads r (.opening file) (r.callMoments compiler request opened)
      ({ r with session := opened }.call compiler request) := by
  have hevents := eventMoments_chain request opened (compiler.compile request opened r.tool).events
  refine ⟨Chain.cons (Work.called h) (hevents.append ?_), ?_⟩
  · rw [call_session]
    exact Chain.cons (Work.settled request _ _) (Chain.nil _ _)
  · rw [call_attempts, callMoments, calledFiles_cons, calledFiles_append, calledFiles_eventMoments]
    rfl

theorem leads_compileFile {r r' : Running σ τ} {file : FileId}
    (h : r.compileFile compiler file = .ok r') :
    Leads r (.opening file) (r.compileMoments compiler file) r' := by
  rcases hrequest : r.session.request file with e | _ | ⟨request, opened⟩
  · rw [compileFile, hrequest] at h
    cases h
  · rw [compileFile, hrequest] at h
    cases h
    rw [compileMoments, hrequest]
    exact ⟨Chain.cons (Work.dropped hrequest) (.nil _ _), by simp [calledFiles, Moment.called?]⟩
  · rw [compileFile, hrequest] at h
    cases h
    rw [compileMoments, hrequest]
    exact leads_call compiler r hrequest

theorem compileMoments_of_error {r : Running σ τ} {file : FileId} {e : BuildError}
    (h : r.compileFile compiler file = .error e) : r.compileMoments compiler file = [] := by
  rcases hrequest : r.session.request file with e | _ | ⟨request, opened⟩
  · rw [compileMoments, hrequest]
  · rw [compileFile, hrequest] at h
    cases h
  · rw [compileFile, hrequest] at h
    cases h

/-! ## Passes -/

/-- The moments of a part of a build, up to its end or to where the build gave up. -/
def Ends (r : Running σ τ) (moments : List (Moment τ)) :
    Option (Except BuildError (Running σ τ)) → Prop
  | none => ∃ u, Leads r .building moments u
  | some (.ok r') => Leads r .building moments r'
  | some (.error _) => ∃ p t, (p = .building ∨ ∃ file, p = .opening file) ∧
      Chain Work .building r.session moments p t

theorem Leads.ends {r u : Running σ τ} {moments more : List (Moment τ)}
    {result : Option (Except BuildError (Running σ τ))} (h : Leads r .building moments u)
    (hmore : Ends u more result) : Ends r (moments ++ more) result := by
  rcases result with _ | e | r'
  · obtain ⟨v, hv⟩ := hmore
    exact ⟨v, h.trans hv⟩
  · obtain ⟨p, t, hp, hchain⟩ := hmore
    exact ⟨p, t, hp, h.chain.append hchain⟩
  · exact h.trans hmore

theorem pass_ends (order : List FileId) (r : Running σ τ) :
    Ends r (r.passMoments compiler order) (some (pass compiler order r)) := by
  induction order generalizing r with
  | nil => exact Leads.refl r
  | cons file rest ih =>
    unfold passMoments pass
    split
    next => exact ⟨.nil _ _, by simp [calledFiles]⟩
    next hcancelled =>
      split
      next hdue =>
        have htaken : Work .building ⟨.taken file, r.session, r.session.take file⟩
            (.opening file) := .taken hdue
        rcases hfile : ({ r with session := r.session.take file } : Running σ τ).compileFile
          compiler file with e | u
        · simp only [compileMoments_of_error compiler hfile, hfile]
          exact ⟨_, _, .inr ⟨file, rfl⟩, Chain.cons htaken (.nil _ _)⟩
        · have hcompiled := leads_compileFile compiler hfile
          have hfirst : Leads r .building _ u :=
            ⟨Chain.cons htaken hcompiled.chain, hcompiled.attempts⟩
          simp only [hfile]
          split
          next => exact hfirst.ends (Leads.refl u)
          next => exact hfirst.ends (ih u)
      next => exact ih r

theorem passes_ends (n : Nat) (r : Running σ τ) :
    Ends r (r.passesMoments compiler n) (passes compiler n r) := by
  induction n generalizing r with
  | zero => exact ⟨r, Leads.refl r⟩
  | succ n ih =>
    unfold passes passesMoments
    rcases hrunnable : r.session.queue.runnable with _ | ⟨first, others⟩
    · exact Leads.refl r
    · rcases hplan : plan r.session (first :: others) with e | order
      · simp only [hplan]
        exact ⟨_, _, .inl rfl, .nil _ _⟩
      · have hpass := pass_ends compiler order r
        rcases hresult : pass compiler order r with e | u
        · rw [hresult] at hpass
          simpa only [hplan, hresult, List.append_nil] using hpass
        · rw [hresult] at hpass
          simp only [hplan, hresult]
          split
          next => exact Leads.ends hpass (Leads.refl u)
          next => exact Leads.ends hpass (ih u)

/-- A build that was not interrupted leaves no file that is due. -/
theorem runnable_of_passes {n : Nat} {r r' : Running σ τ}
    (h : passes compiler n r = some (.ok r')) (hr : r'.interrupted = false) :
    r'.session.queue.runnable = [] := by
  induction n generalizing r with
  | zero => cases h
  | succ n ih =>
    unfold passes at h
    split at h
    next hrunnable =>
      cases h
      exact hrunnable
    next =>
      split at h
      next => cases h
      next =>
        split at h
        next => cases h
        next u hu =>
          split at h
          next hinterrupted =>
            cases h
            rw [hinterrupted] at hr
            cases hr
          next => exact ih h

theorem showRetries_eq (r : Running σ τ) :
    ∃ diagnostics, r.showRetries = { r.session with diagnostics } := by
  unfold showRetries
  split
  next =>
    generalize r.retryDiagnostics.entries = entries
    generalize r.session = s
    induction entries generalizing s with
    | nil => exact ⟨s.diagnostics, rfl⟩
    | cons e rest ih =>
      rw [List.foldl_cons]
      split
      next =>
        obtain ⟨diagnostics, hrest⟩ := ih { s with diagnostics := s.diagnostics.put e.1 e.2 }
        exact ⟨diagnostics, hrest⟩
      next => exact ih s
  next => exact ⟨r.session.diagnostics, rfl⟩

theorem finish_step (r : Running σ τ) :
    Step .building ⟨.finished, r.session, r.finish.2⟩ .idle := by
  obtain ⟨diagnostics, hshow⟩ := showRetries_eq r
  unfold finish
  rw [hshow]
  exact Step.finished _ _ _ _

end Running

/-! ## Builds -/

variable {compiler : Compiler σ τ} {n : Nat} {cancelled : Bool} {s : Session τ} {tool : σ}

/-- The moments of a build up to its end follow each other by the steps of a build. -/
theorem workMoments_chain (compiler : Compiler σ τ) (n : Nat) (cancelled : Bool) (s : Session τ)
    (tool : σ) : ∃ q t, Chain Work .building (s.start cancelled)
      (s.workMoments compiler n cancelled tool) q t := by
  have hends := Running.passes_ends compiler n { session := s.start cancelled, tool }
  unfold Session.workMoments
  rcases hresult : Running.passes compiler n { session := s.start cancelled, tool } with _ | e | r
  · rw [hresult] at hends
    obtain ⟨u, hu⟩ := hends
    exact ⟨_, _, hu.chain⟩
  · rw [hresult] at hends
    obtain ⟨p, t, -, hchain⟩ := hends
    exact ⟨p, t, hchain⟩
  · rw [hresult] at hends
    exact ⟨_, _, Running.Leads.chain hends⟩

/-- What a build that returns a report did. -/
theorem build_work {report : Report} {s' : Session τ} {tool' : σ}
    (h : s.build compiler n cancelled tool = some (.ok (report, s', tool'))) :
    ∃ t, Chain Work .building (s.start cancelled) (s.workMoments compiler n cancelled tool)
        .building t ∧
      Step .building ⟨.finished, t, s'⟩ .idle ∧
      report.attempts.map Attempt.file = calledFiles (s.workMoments compiler n cancelled tool) ∧
      (report.outcome.interrupted = false → t.queue.runnable = []) := by
  have hends := Running.passes_ends compiler n { session := s.start cancelled, tool }
  unfold Session.build at h
  rcases hresult : Running.passes compiler n { session := s.start cancelled, tool } with _ | e | r
  · rw [hresult] at h
    cases h
  · rw [hresult] at h
    cases h
  · rw [hresult] at h hends
    obtain ⟨hchain, hattempts⟩ : Running.Leads _ _ _ r := hends
    cases h
    exact ⟨r.session, hchain, r.finish_step, hattempts,
      fun hr => Running.runnable_of_passes compiler hresult hr⟩

theorem buildMoments_eq {report : Report} {s' : Session τ} {tool' : σ}
    (h : s.build compiler n cancelled tool = some (.ok (report, s', tool'))) :
    ∃ reached, s.buildMoments compiler n cancelled tool =
      ⟨.started cancelled, s, s.start cancelled⟩ ::
        (s.workMoments compiler n cancelled tool ++ [⟨.finished, reached, s'⟩]) := by
  unfold Session.buildMoments
  rw [h]
  exact ⟨_, rfl⟩

/-- A build that does not return is between two passes. -/
theorem buildMoments_ends : ∃ t, Chain Step .idle s (s.buildMoments compiler n cancelled tool)
    (if (s.build compiler n cancelled tool).isSome then .idle else .building) t := by
  have hends := Running.passes_ends compiler n { session := s.start cancelled, tool }
  have hstarted := Step.started s cancelled
  unfold Session.buildMoments
  rcases hresult : Running.passes compiler n { session := s.start cancelled, tool } with _ | e | r
  · rw [hresult] at hends
    obtain ⟨u, hchain, -⟩ := hends
    have hbuild : s.build compiler n cancelled tool = none := by rw [Session.build, hresult]; rfl
    rw [hbuild]
    refine ⟨u.session, Chain.cons hstarted ?_⟩
    rw [List.append_nil]
    exact hchain.imp .work
  · rw [hresult] at hends
    obtain ⟨p, t, hp, hchain⟩ := hends
    have hbuild : s.build compiler n cancelled tool = some (.error e) := by
      rw [Session.build, hresult]; rfl
    have hlast : lastSession (s.start cancelled) (s.workMoments compiler n cancelled tool) = t :=
      hchain.lastSession_eq
    simp only [hbuild, hlast]
    refine ⟨t, Chain.cons hstarted ((hchain.imp .work).append ?_)⟩
    exact Chain.cons (Step.failed hp t e) (.nil _ _)
  · have hbuild : s.build compiler n cancelled tool =
        some (.ok (r.finish.1, r.finish.2, r.tool)) := by rw [Session.build, hresult]; rfl
    obtain ⟨t, hchain, hfinished, -⟩ := build_work hbuild
    simp only [hbuild, hchain.lastSession_eq]
    refine ⟨r.finish.2, Chain.cons hstarted ((hchain.imp .work).append ?_)⟩
    exact Chain.cons hfinished (.nil _ _)

theorem Command.moments_ends (s : Session τ) (command : Command σ τ) :
    ∃ t, Chain Step .idle s (command.moments s)
      (if command.returns s then .idle else .building) t := by
  cases command with
  | event e => exact ⟨s.apply e, Chain.cons (Step.event s e) (.nil _ _)⟩
  | build compiler n cancelled tool => exact buildMoments_ends

/-- The moments of a history follow each other by steps, and no call is under way at its end. -/
theorem history_ends (s : Session τ) (commands : List (Command σ τ)) :
    ∃ q, (q = .idle ∨ q = .building) ∧
      Chain Step .idle s (history s commands) q (s.after commands) := by
  have hmoments : ∃ q t, (q = .idle ∨ q = .building) ∧
      Chain Step .idle s (history s commands) q t := by
    induction commands generalizing s with
    | nil => exact ⟨.idle, s, .inl rfl, .nil _ _⟩
    | cons command rest ih =>
      obtain ⟨t, hchain⟩ := command.moments_ends s
      unfold history
      split
      next hreturns =>
        rw [if_pos hreturns] at hchain
        obtain ⟨last, u, hlast, hrest⟩ := ih t
        simp only [hchain.lastSession_eq]
        exact ⟨last, u, hlast, hchain.append hrest⟩
      next hreturns =>
        rw [if_neg hreturns] at hchain
        exact ⟨.building, t, .inr rfl, hchain⟩
  obtain ⟨q, t, hq, hchain⟩ := hmoments
  exact ⟨q, hq, by rwa [Session.after, hchain.lastSession_eq]⟩

theorem history_chain (s : Session τ) (commands : List (Command σ τ)) :
    ∃ q, Chain Step .idle s (history s commands) q (s.after commands) := by
  obtain ⟨q, -, hchain⟩ := history_ends s commands
  exact ⟨q, hchain⟩

end Rebuild.Build
