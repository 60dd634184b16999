import Mathlib
import Rebuild.Proofs.Build.Effects
import Rebuild.Proofs.Build.Replay

/-! No requested compilation is lost. Main statement: a file of a project that was put in the queue
stays there until it is removed or a compilation of it that began later succeeds. -/
namespace Rebuild.Build

variable {σ τ : Type} {file : FileId}

/-- Among the moments is a whole compilation of the file, from its call to its success. -/
def Compiles (file : FileId) (moments : List (Moment τ)) : Prop :=
  ∃ earlier start events stop rest, moments = earlier ++ start :: (events ++ stop :: rest) ∧
    start.Calls file ∧ (∀ e ∈ events, e.event?.isSome) ∧ stop.Succeeds file

/-- What ends the stay of a file in the queue. -/
def Released (file : FileId) (moments : List (Moment τ)) : Prop :=
  (∃ m ∈ moments, m.Removes file) ∨ Compiles file moments

theorem Released.append {moments : List (Moment τ)} (h : Released file moments)
    (more : List (Moment τ)) : Released file (moments ++ more) := by
  rcases h with ⟨m, hm, hremoves⟩ | ⟨earlier, start, events, stop, rest, rfl, h⟩
  · exact .inl ⟨m, List.mem_append_left _ hm, hremoves⟩
  · exact .inr ⟨earlier, start, events, stop, rest ++ more, by simp, h⟩

/-- The file is being compiled since a call among the moments. -/
def Underway (file : FileId) (moments : List (Moment τ)) : Prop :=
  ∃ earlier start events, moments = earlier ++ start :: events ∧ start.Calls file ∧
    ∀ e ∈ events, e.event?.isSome

namespace Underway

variable {moments : List (Moment τ)} {m : Moment τ}

theorem of_calls (moments : List (Moment τ)) (hm : m.Calls file) :
    Underway file (moments ++ [m]) := ⟨moments, m, [], rfl, hm, by simp⟩

theorem event (h : Underway file moments) (hm : m.event?.isSome) :
    Underway file (moments ++ [m]) := by
  obtain ⟨earlier, start, events, rfl, hstart, hevents⟩ := h
  refine ⟨earlier, start, events ++ [m], by simp, hstart, ?_⟩
  exact List.forall_mem_append.mpr ⟨hevents, List.forall_mem_singleton.mpr hm⟩

theorem compiles (h : Underway file moments) (hm : m.Succeeds file) :
    Compiles file (moments ++ [m]) := by
  obtain ⟨earlier, start, events, rfl, hstart, hevents⟩ := h
  exact ⟨earlier, start, events, m, [], by simp, hstart, hevents, hm⟩

end Underway

/-! ## What a step preserves -/

/-- A queued file of a project, after some moments. If it is marked as being compiled while a build
runs, then its turn has come, and once the compiler runs, it was called after those moments. -/
structure Held (file : FileId) (seen : List (Moment τ)) (p : Phase) (s : Session τ) : Prop where
  project : s.workspace.InProject file
  queued : s.queue.contains file
  compiling : s.queue.state? file = some .compiling → p = .idle ∨ p = .opening file ∨
    ∃ request, p = .compiling request ∧ request.file = file ∧ Underway file seen

namespace Held

variable {seen : List (Moment τ)} {p q : Phase} {s t : Session τ} {m : Moment τ}

theorem of_isDue (hproject : s.workspace.InProject file) (hdue : s.queue.isDue file) :
    Held file seen p s :=
  ⟨hproject, Queue.contains_of_isDue hdue, fun h => absurd h (Queue.ne_compiling_of_isDue hdue)⟩

/-- Outside the compilation of the file its state is another than `compiling`. -/
theorem not_compiling (h : Held file seen p s) (hidle : p ≠ .idle) (hopening : p ≠ .opening file)
    (hcompiling : ∀ request, p = .compiling request → request.file ≠ file) :
    s.queue.state? file ≠ some .compiling := by
  intro hstate
  rcases h.compiling hstate with hp | hp | ⟨request, hp, hfile, -⟩
  · exact hidle hp
  · exact hopening hp
  · exact hcompiling request hp hfile

/-- A step that leaves a file in its state, which is not `compiling`. -/
theorem keep (h : Held file seen p s) (hgrows : s.workspace.Grows t.workspace)
    (hkeeps : s.queue.Keeps file t.queue) (hstate : s.queue.state? file ≠ some .compiling) :
    Held file (seen ++ [m]) q t :=
  ⟨h.project.grows hgrows, hkeeps.contains h.queued,
    fun hcompiling => absurd (hkeeps.compiling hcompiling) hstate⟩

/-- An event that does not remove the file. -/
theorem event (h : Held file seen p s) (hgrows : s.workspace.Grows t.workspace)
    (hkeeps : s.queue.Keeps file t.queue) (hm : m.event?.isSome) :
    Held file (seen ++ [m]) p t := by
  refine ⟨h.project.grows hgrows, hkeeps.contains h.queued, fun hcompiling => ?_⟩
  rcases h.compiling (hkeeps.compiling hcompiling) with hp | hp | ⟨request, hp, hfile, hseen⟩
  · exact .inl hp
  · exact .inr (.inl hp)
  · exact .inr (.inr ⟨request, hp, hfile, hseen.event hm⟩)

end Held

theorem apply_keeps (s : Session τ) {e : Event}
    (h : ∀ p, e = .removeFile p → (s.register p).1 ≠ file) :
    s.queue.Keeps file (s.apply e).queue := by
  cases e with
  | markDirty p => exact Queue.Keeps.enqueue _ _
  | markAllDirty =>
    apply Session.markEach_induction (P := fun t => s.queue.Keeps file t.queue)
    · exact Queue.Keeps.of_state?_eq rfl
    · intro t p _ ht
      exact ht.trans (Queue.Keeps.enqueue _ _)
  | removeFile p =>
    change s.queue.Keeps file (s.removeFile p).2.queue
    rw [(s.removeFile_eq p).2.2.1]
    exact (Queue.Keeps.remove _ (h p rfl)).trans (Queue.Keeps.enqueueAll _ _)
  | _ => exact Queue.Keeps.of_state?_eq rfl

variable {seen : List (Moment τ)} {p q : Phase} {m : Moment τ}

theorem Held.apply {s : Session τ} {e : Event} (h : Held file seen p s) :
    Released file (seen ++ [⟨.event e, s, s.apply e⟩]) ∨
      Held file (seen ++ [⟨.event e, s, s.apply e⟩]) p (s.apply e) := by
  by_cases hremoves : ∃ p, e = .removeFile p ∧ (s.register p).1 = file
  · obtain ⟨p, rfl, hfile⟩ := hremoves
    have hlast : (⟨.event (.removeFile p), s, s.apply (.removeFile p)⟩ : Moment τ).Removes file :=
      ⟨p, rfl, hfile⟩
    exact .inl (.inl ⟨_, List.mem_append_right _ (List.mem_singleton_self _), hlast⟩)
  · refine .inr (h.event (s.apply_grows e) (apply_keeps s fun p hp hfile => ?_) rfl)
    exact hremoves ⟨p, hp, hfile⟩

theorem settle_keeps (file : FileId) (s : Session τ) (request : CompileRequest)
    (output : CompileOutput) :
    (s.queue.settled request.file output.status).Keeps file (s.settle request output).queue := by
  rw [s.settle_queue request output]
  exact Queue.Keeps.enqueueAll _ _

/-- Only the success of the file itself, when no event queued it meanwhile, takes it out. -/
theorem Held.settle {s : Session τ} {request : CompileRequest} {output : CompileOutput}
    (h : Held file seen (.compiling request) s) :
    Released file (seen ++ [⟨.settled request output, s, s.settle request output⟩]) ∨
      Held file (seen ++ [⟨.settled request output, s, s.settle request output⟩]) .building
        (s.settle request output) := by
  have hgrows := s.settle_grows request output
  have hkeeps := settle_keeps file s request output
  have hsettled := s.queue.state?_settled request.file file output.status
  by_cases hown : request.file = file ∧ s.queue.state? request.file = some .compiling
  · -- It is still marked, so nothing queued it since the call: the answer decides.
    rw [if_pos hown] at hsettled
    obtain ⟨rfl, hstate⟩ := hown
    have hunderway : Underway request.file seen := by
      rcases h.compiling hstate with hp | hp | ⟨_, _, _, hunderway⟩
      · cases hp
      · cases hp
      · exact hunderway
    have hstay {state : EntryState} (hleaves : output.status.leaves = some state)
        (hne : state ≠ .compiling) : Held request.file
          (seen ++ [⟨.settled request output, s, s.settle request output⟩]) .building
          (s.settle request output) := by
      rw [hleaves] at hsettled
      refine ⟨h.project.grows hgrows, hkeeps.contains ?_, fun hcompiling => ?_⟩
      · exact (Queue.contains_iff _ _).mpr ⟨state, hsettled⟩
      · have hcontra := hkeeps.compiling hcompiling
        rw [hsettled, Option.some.injEq] at hcontra
        exact absurd hcontra hne
    cases hstatus : output.status with
    | success => exact .inl (.inr (hunderway.compiles ⟨request, output, rfl, rfl, hstatus⟩))
    | retryable => exact .inr (hstay (by rw [hstatus]; rfl) (by decide))
    | fatal => exact .inr (hstay (by rw [hstatus]; rfl) (by decide))
  · -- Another file, or this one with an edit since the call: its entry is left alone.
    rw [if_neg hown] at hsettled
    have hstate : s.queue.state? file ≠ some .compiling := by
      intro hstate
      rcases h.compiling hstate with hp | hp | ⟨other, hp, hfile, -⟩
      · cases hp
      · cases hp
      · cases hp
        exact hown ⟨hfile, hfile ▸ hstate⟩
    exact .inr (h.keep hgrows ((Queue.Keeps.of_state?_eq hsettled).trans hkeeps) hstate)

theorem Held.work (hm : Work p m q) (h : Held file seen p m.before) :
    Released file (seen ++ [m]) ∨ Held file (seen ++ [m]) q m.after := by
  have hgrows := hm.grows
  cases hm with
  | @taken s g hdue =>
    have htaken := s.queue.state?_setState g file .compiling
    by_cases hg : g = file
    · subst hg
      refine .inr ⟨h.project, ?_, fun _ => .inr (.inl rfl)⟩
      obtain ⟨state, hstate⟩ := (Queue.contains_iff _ _).mp h.queued
      rw [if_pos rfl, hstate] at htaken
      exact (Queue.contains_iff _ _).mpr ⟨_, htaken⟩
    · rw [if_neg hg] at htaken
      refine .inr (h.keep hgrows (Queue.Keeps.of_state?_eq htaken) ?_)
      exact h.not_compiling (by simp) (by simp) (by simp)
  | @dropped s g hnone =>
    have hg : g ≠ file := by
      rintro rfl
      exact Session.request_eq_none hnone h.project
    refine .inr (h.keep hgrows (Queue.Keeps.remove _ hg) ?_)
    exact h.not_compiling (by simp) (by simpa using hg) (by simp)
  | @called s t g request hsome =>
    obtain ⟨hfile, -, -, hqueue, -⟩ := Session.request_eq_some hsome
    have hkeeps : s.queue.Keeps file t.queue := Queue.Keeps.of_state?_eq (by rw [hqueue])
    by_cases hg : g = file
    · have hcalls : (⟨.called request, s, t⟩ : Moment τ).Calls file :=
        congrArg some (hfile.trans hg)
      refine .inr ⟨h.project.grows hgrows, hkeeps.contains h.queued, fun _ => .inr (.inr ?_)⟩
      exact ⟨request, rfl, hfile.trans hg, Underway.of_calls seen hcalls⟩
    · refine .inr (h.keep hgrows hkeeps ?_)
      exact h.not_compiling (by simp) (by simpa using hg) (by simp)
  | event request s e => exact h.apply
  | settled request s output => exact h.settle

/-- A step ends the stay of a file, or keeps it in the queue. -/
theorem Held.step (hm : Step p m q) (h : Held file seen p m.before) :
    Released file (seen ++ [m]) ∨ Held file (seen ++ [m]) q m.after := by
  have hgrows := hm.grows
  cases hm with
  | work hm => exact h.work hm
  | event s e => exact h.apply
  | started s cancelled =>
    exact .inr (Held.of_isDue (h.project.grows hgrows) (Queue.isDue_resetFailed h.queued))
  | finished s diagnostics interrupted lastBuild =>
    refine .inr ⟨h.project, h.queued, fun _ => .inl rfl⟩
  | failed hp s e => exact .inr ⟨h.project, h.queued, fun _ => .inl rfl⟩

/-! ## Whole histories -/

theorem Held.chain {s t : Session τ} {moments : List (Moment τ)} (h : Held file seen p s)
    (hchain : Chain Step p s moments q t) :
    Released file (seen ++ moments) ∨ Held file (seen ++ moments) q t := by
  refine hchain.invariant (I := fun seen p s => Released file seen ∨ Held file seen p s) ?_
    seen (.inr h)
  intro seen p m q hm hI
  rcases hI with hreleased | hheld
  · exact .inl (hreleased.append [m])
  · exact hheld.step hm

/-- However a history goes on after a file of a project was put in the queue: as long as the file is
not removed, and no compilation of it that began since has succeeded, it is in the queue. -/
theorem queued_until_released (s : Session τ) (commands : List (Command σ τ))
    {before later rest : List (Moment τ)} {m : Moment τ}
    (hsplit : history s commands = before ++ m :: (later ++ rest)) (hm : m.Enqueues file)
    (hproject : m.after.workspace.InProject file) :
    Released file later ∨ (lastSession m.after later).queue.contains file := by
  obtain ⟨last, hchain⟩ := history_chain s commands
  rw [hsplit] at hchain
  obtain ⟨p, next, -, hstep, hchain⟩ := hchain.split_cons
  obtain ⟨q, t, hlater, -⟩ := hchain.split
  have hheld : Held file [] next m.after := Held.of_isDue hproject (hstep.isDue_of_enqueues hm)
  rw [hlater.lastSession_eq]
  rcases hheld.chain hlater with hreleased | hheld
  · exact .inl hreleased
  · exact .inr hheld.queued

/-- Never done, and the source is edited while it is compiled. -/
def restless : Compiler Unit Unit where
  compile request _ _ := ⟨[.markDirty request.path], { status := .retryable }, ()⟩

theorem queued_while_restless :
    let s := Session.sample.apply (.markDirty ⟨"src/A.java"⟩)
    let later := history s [.build restless 3 false (), .build restless 3 true ()]
    Released 0 later ∨ (lastSession s later).queue.contains 0 := by
  intro s later
  let edit : Moment Unit := ⟨.event (.markDirty ⟨"src/A.java"⟩), Session.sample, s⟩
  have hhistory : history Session.sample (.event (.markDirty ⟨"src/A.java"⟩) ::
      [.build restless 3 false (), .build restless 3 true ()]) = [] ++ edit :: (later ++ []) := by
    rw [List.append_nil]
    exact history_event _ _ _
  have hproject : edit.after.workspace.InProject 0 :=
    ⟨⟨"src/A.java"⟩, rfl, _, List.mem_singleton_self _, by decide⟩
  have hedit : edit.Enqueues 0 := .inl ⟨⟨"src/A.java"⟩, rfl, rfl⟩
  exact @queued_until_released _ _ 0 _ _ [] later [] edit hhistory hedit hproject

end Rebuild.Build
