import Mathlib
import Rebuild.Proofs.Build.Effects
import Rebuild.Proofs.Build.Replay

/-! How many calls of the compiler are to be tried again. Main statement: no build takes more of
them than the options allow, and the last of them stops the build. -/
namespace Rebuild.Build

variable {σ τ : Type}

/-! ## Options -/

namespace Session

variable (s : Session τ)

theorem markEach_options (files : List Path) : (s.markEach files).options = s.options :=
  markEach_induction (P := fun t => t.options = s.options) rfl fun _ _ _ ht => ht

theorem evictSource_options (p : Path) : (s.evictSource p).options = s.options := by
  obtain ⟨table, htable⟩ := s.evictSource_eq p
  rw [htable]

theorem apply_options (e : Event) : (s.apply e).options = s.options := by
  cases e with
  | markAllDirty => exact s.markEach_options _
  | removeFile p => exact evictSource_options _ p
  | _ => rfl

theorem applyAll_options (events : List Event) : (s.applyAll events).options = s.options := by
  induction events generalizing s with
  | nil => rfl
  | cons e rest ih => exact (ih (s.apply e)).trans (s.apply_options e)

theorem settle_options (request : CompileRequest) (output : CompileOutput) :
    (s.settle request output).options = s.options := by
  obtain ⟨_, _, _, _, _, hsettle⟩ := s.settle_frame request output
  rw [hsettle]

theorem request_options {s t : Session τ} {file : FileId} {request : CompileRequest}
    (h : s.request file = .ok (some (request, t))) : t.options = s.options := by
  unfold Session.request at h
  split at h
  next => cases h
  next =>
    split at h
    next => cases h
    next =>
      split at h
      next => cases h
      next =>
        cases h
        rfl

end Session

theorem Step.options {p q : Phase} {m : Moment τ} (hm : Step p m q) :
    m.after.options = m.before.options := by
  cases hm with
  | work hm =>
    cases hm with
    | called hsome => exact Session.request_options hsome
    | event request s e => exact s.apply_options e
    | settled request s output => exact s.settle_options request output
    | _ => rfl
  | event s e => exact s.apply_options e
  | _ => rfl

theorem after_options (s : Session τ) (commands : List (Command σ τ)) :
    (s.after commands).options = s.options := by
  obtain ⟨q, hchain⟩ := history_chain s commands
  exact hchain.invariant (I := fun _ _ t => t.options = s.options)
    (fun hm h => hm.options.trans h) [] rfl

/-! ## Counting -/

/-- The compiler has answered that the call is to be tried again. -/
def Moment.retried (m : Moment τ) : Bool :=
  match m.happening with
  | .settled _ output => output.status = .retryable
  | _ => false

/-- How many calls are to be tried again before a build stops. -/
def Options.retryLimit (o : Options) : Nat := max 1 o.maxErrorCount

theorem countP_eventMoments (s : Session τ) (events : List Event) :
    (s.eventMoments events).countP Moment.retried = 0 := by
  induction events generalizing s with
  | nil => rfl
  | cons e rest ih =>
    rw [Session.eventMoments, List.countP_cons, ih]
    rfl

namespace Running

variable {compiler : Compiler σ τ} {options : Options} {r u : Running σ τ}
  {moments more : List (Moment τ)} {result : Option (Except BuildError (Running σ τ))}

/-- A build that goes on, with the retries so far below the limit. -/
structure Going (options : Options) (r : Running σ τ) : Prop where
  options_eq : r.session.options = options
  running : r.interrupted = false
  below : r.retries < options.retryLimit

theorem going_start (cancelled : Bool) (s : Session τ) (tool : σ) :
    Going s.options ({ session := s.start cancelled, tool } : Running σ τ) :=
  ⟨rfl, rfl, Nat.lt_of_lt_of_le Nat.zero_lt_one (Nat.le_max_left 1 _)⟩

/-- The retries after a part of a build that starts with a number of them. The one that reaches the
limit is the last moment. -/
structure Tally (options : Options) (start : Nat) (moments : List (Moment τ))
    (result : Option (Except BuildError (Running σ τ))) : Prop where
  count : start + moments.countP Moment.retried ≤ options.retryLimit
  going : ∀ r', result = some (.ok r') → r'.interrupted = false →
    r'.session.options = options ∧ r'.retries = start + moments.countP Moment.retried
  reached : start + moments.countP Moment.retried = options.retryLimit →
    (∃ r', result = some (.ok r') ∧ r'.interrupted = true) ∧
      ∃ m, moments.getLast? = some m ∧ m.retried = true

namespace Tally

/-- A part without calls that are to be tried again. -/
theorem of_none (hr : Going options r) (hmoments : moments.countP Moment.retried = 0)
    (hresult : ∀ r', result = some (.ok r') → r'.interrupted = false →
      r'.session.options = options ∧ r'.retries = r.retries) : Tally options r.retries moments result := by
  have hbelow := hr.below
  refine ⟨by omega, fun r' hr' hrunning => ?_, fun h => by omega⟩
  rw [hmoments]
  exact hresult r' hr' hrunning

/-- A build that goes on after a part of it has not reached the limit. -/
theorem goes_on (h : Tally options r.retries moments (some (.ok u))) (hu : u.interrupted = false) :
    Going options u := by
  obtain ⟨hoptions, hretries⟩ := h.going u rfl hu
  refine ⟨hoptions, hu, ?_⟩
  have hcount := h.count
  by_contra hlimit
  obtain ⟨⟨r', hr', hinterrupted⟩, -⟩ := h.reached (by omega)
  cases hr'
  rw [hu] at hinterrupted
  cases hinterrupted

theorem trans (h : Tally options r.retries moments (some (.ok u))) (hu : u.interrupted = false)
    (hmore : Tally options u.retries more result) : Tally options r.retries (moments ++ more) result := by
  obtain ⟨-, hretries⟩ := h.going u rfl hu
  have hsum : r.retries + (moments ++ more).countP Moment.retried =
      u.retries + more.countP Moment.retried := by
    rw [List.countP_append]
    omega
  refine ⟨hsum ▸ hmore.count, fun r' hr' hrunning => ?_, fun hlimit => ?_⟩
  · rw [hsum]
    exact hmore.going r' hr' hrunning
  · obtain ⟨hstop, m, hlast, hm⟩ := hmore.reached (hsum ▸ hlimit)
    exact ⟨hstop, m, by rw [List.getLast?_append, hlast]; rfl, hm⟩

theorem cons (h : Tally options r.retries moments result) {m : Moment τ} (hm : m.retried = false) :
    Tally options r.retries (m :: moments) result := by
  have hcount : (m :: moments).countP Moment.retried = moments.countP Moment.retried := by
    rw [List.countP_cons, hm]
    rfl
  refine ⟨hcount ▸ h.count, hcount ▸ h.going, fun hlimit => ?_⟩
  obtain ⟨hstop, last, hlast, hretried⟩ := h.reached (hcount ▸ hlimit)
  exact ⟨hstop, last, by rw [List.getLast?_cons, hlast]; rfl, hretried⟩

end Tally

theorem call_retries (compiler : Compiler σ τ) (r : Running σ τ) (request : CompileRequest) :
    (r.call compiler request).retries = r.retries +
      if (compiler.compile request r.session r.tool).output.status = .retryable then 1 else 0 := by
  cases hstatus : (compiler.compile request r.session r.tool).output.status <;>
    simp [call, invoke, settle, hstatus]

theorem call_tally {request : CompileRequest} {opened : Session τ} (hr : Going options r)
    (hoptions : opened.options = options) :
    Tally options r.retries (r.callMoments compiler request opened)
      (some (.ok ({ r with session := opened }.call compiler request))) := by
  have hafter : ({ r with session := opened }.call compiler request).session.options =
      options := by
    rw [call_session, Session.settle_options, Session.applyAll_options, hoptions]
  have hcount (status : Bool) (output : CompileOutput) (s s' : Session τ)
      (hstatus : decide (output.status = .retryable) = status) :
      (⟨.called request, r.session, opened⟩ :: (opened.eventMoments
          (compiler.compile request opened r.tool).events ++
        [⟨.settled request output, s, s'⟩])).countP Moment.retried = status.toNat := by
    rw [List.countP_cons, List.countP_append, countP_eventMoments]
    simp only [Moment.retried, List.countP_cons, hstatus]
    cases status <;> rfl
  have hbelow := hr.below
  unfold callMoments
  simp only
  rcases hstatus : (compiler.compile request opened r.tool).output.status with _ | _ | _
  · refine Tally.of_none hr (hcount false _ _ _ (by simp [hstatus])) fun r' hr' _ => ?_
    cases hr'
    refine ⟨hafter, ?_⟩
    simp [call_retries, hstatus]
  · have hone := hcount true (compiler.compile request opened r.tool).output
      (opened.applyAll (compiler.compile request opened r.tool).events)
      ((opened.applyAll (compiler.compile request opened r.tool).events).settle request
        (compiler.compile request opened r.tool).output) (by simp [hstatus])
    refine ⟨by rw [hone]; exact hbelow, fun r' hr' _ => ?_, fun hlimit => ⟨⟨_, rfl, ?_⟩, ?_⟩⟩
    · cases hr'
      refine ⟨hafter, ?_⟩
      rw [hone]
      simp [call_retries, hstatus]
    · have hmax : options.maxErrorCount ≤ r.retries + 1 := by
        rw [hone] at hlimit
        exact (Nat.le_max_right 1 _).trans hlimit.ge
      simp only [call, invoke, settle, hstatus, Session.settle_options, Session.applyAll_options,
        hoptions, ge_iff_le, hmax, decide_true, Bool.or_true]
    · refine ⟨_, by rw [List.getLast?_cons, List.getLast?_append], ?_⟩
      simp [Moment.retried, hstatus]
  · refine Tally.of_none hr (hcount false _ _ _ (by simp [hstatus])) fun r' hr' _ => ?_
    cases hr'
    refine ⟨hafter, ?_⟩
    simp [call_retries, hstatus]

theorem compileFile_tally {file : FileId} (hr : Going options r) :
    Tally options r.retries (r.compileMoments compiler file)
      (some (r.compileFile compiler file)) := by
  unfold compileMoments compileFile
  rcases hrequest : r.session.request file with e | _ | ⟨request, opened⟩
  · exact Tally.of_none hr rfl fun r' hr' => by cases hr'
  · refine Tally.of_none hr rfl fun r' hr' _ => ?_
    cases hr'
    exact ⟨hr.options_eq, rfl⟩
  · exact call_tally hr ((Session.request_options hrequest).trans hr.options_eq)

theorem pass_tally (order : List FileId) (hr : Going options r) :
    Tally options r.retries (r.passMoments compiler order) (some (pass compiler order r)) := by
  induction order generalizing r with
  | nil =>
    refine Tally.of_none hr rfl fun r' hr' _ => ?_
    cases hr'
    exact ⟨hr.options_eq, rfl⟩
  | cons file rest ih =>
    unfold passMoments pass
    split
    next =>
      refine Tally.of_none hr rfl fun r' hr' hrunning => ?_
      cases hr'
      cases hrunning
    next =>
      split
      next =>
        let taken : Running σ τ := { r with session := r.session.take file }
        have htaken : Going options taken := ⟨hr.options_eq, hr.running, hr.below⟩
        have hfile : Tally options taken.retries (taken.compileMoments compiler file) _ :=
          compileFile_tally htaken
        refine Tally.cons ?_ rfl
        rcases hresult : taken.compileFile compiler file with e | v
        · rw [hresult] at hfile
          simp only [List.append_nil]
          exact hfile
        · rw [hresult] at hfile
          simp only
          split_ifs with hv
          · simp only [List.append_nil]
            exact hfile
          · rw [Bool.not_eq_true] at hv
            exact hfile.trans hv (ih (hfile.goes_on hv))
      next => exact ih hr

theorem passes_tally (n : Nat) (hr : Going options r) :
    Tally options r.retries (r.passesMoments compiler n) (passes compiler n r) := by
  induction n generalizing r with
  | zero => exact Tally.of_none hr rfl fun r' hr' => by cases hr'
  | succ n ih =>
    unfold passes passesMoments
    rcases hrunnable : r.session.queue.runnable with _ | ⟨first, others⟩
    · refine Tally.of_none hr rfl fun r' hr' _ => ?_
      cases hr'
      exact ⟨hr.options_eq, rfl⟩
    · rcases hplan : plan r.session (first :: others) with e | order
      · simp only [hplan]
        exact Tally.of_none hr rfl fun r' hr' => by cases hr'
      · have hpass : Tally options r.retries (r.passMoments compiler order) _ :=
          pass_tally order hr
        rcases hresult : pass compiler order r with e | v
        · rw [hresult] at hpass
          simp only [hplan, hresult, List.append_nil]
          exact hpass
        · rw [hresult] at hpass
          simp only [hplan, hresult]
          split_ifs with hv
          · rw [List.append_nil]
            exact hpass
          · rw [Bool.not_eq_true] at hv
            exact hpass.trans hv (ih (hpass.goes_on hv))

end Running

/-! ## Builds -/

variable (compiler : Compiler σ τ) (n : Nat) (cancelled : Bool) (s : Session τ) (tool : σ)

/-- A build takes no more retries than it may. When it has taken them all it stops, and nothing
comes after the last of them but its end. -/
theorem build_retries :
    let moments := s.buildMoments compiler n cancelled tool
    moments.countP Moment.retried ≤ s.options.retryLimit ∧
      (moments.countP Moment.retried = s.options.retryLimit →
        ∃ report s' tool' earlier m last,
          s.build compiler n cancelled tool = some (.ok (report, s', tool')) ∧
          report.outcome.interrupted = true ∧ moments = earlier ++ [m, last] ∧
          m.retried = true ∧ last.happening = .finished) := by
  intro moments
  have htally : Running.Tally s.options 0 (s.workMoments compiler n cancelled tool)
      (Running.passes compiler n { session := s.start cancelled, tool }) :=
    Running.passes_tally n (Running.going_start cancelled s tool)
  have hcount : moments.countP Moment.retried =
      (s.workMoments compiler n cancelled tool).countP Moment.retried := by
    simp only [moments, Session.buildMoments, List.countP_cons, List.countP_append]
    split <;> simp [Moment.retried]
  refine ⟨?_, fun hlimit => ?_⟩
  · rw [hcount]
    simpa using htally.count
  · obtain ⟨⟨r, hr, hinterrupted⟩, m, hlast, hm⟩ := htally.reached (by rw [← hcount, hlimit]; omega)
    have hbuild : s.build compiler n cancelled tool =
        some (.ok (r.finish.1, r.finish.2, r.tool)) := by rw [Session.build, hr]; rfl
    obtain ⟨reached, hmoments⟩ := buildMoments_eq hbuild
    have hwork := List.dropLast_append_getLast? m hlast
    refine ⟨_, _, _, ⟨.started cancelled, s, s.start cancelled⟩ ::
        (s.workMoments compiler n cancelled tool).dropLast, m, ⟨.finished, reached, r.finish.2⟩,
      hbuild, hinterrupted, ?_, hm, rfl⟩
    simp only [moments, hmoments]
    conv_lhs => rw [← hwork]
    simp

end Rebuild.Build
