import Mathlib
import Rebuild.Build.ScriptedCompiler
import Rebuild.Proofs.Build.Diagnostics

/-! What is left of a removed source. Main statement: as long as it is neither there nor marked, it is
not queued, has no record and no edges, and is not compiled; only a compilation that was under way
when it was removed may leave diagnostics, if its answer is that the source is at fault. -/
namespace Rebuild.Build

open Dependency.Cache (Unknown)

variable {σ τ : Type} {file : FileId} {s t : Session τ}

/-! ## The end of a build -/

/-- What holds of the moments of each command holds of a history. -/
theorem history_forall {P : Moment τ → Prop}
    (h : ∀ (s : Session τ) (command : Command σ τ), ∀ m ∈ command.moments s, P m)
    (s : Session τ) (commands : List (Command σ τ)) : ∀ m ∈ history s commands, P m := by
  induction commands generalizing s with
  | nil => simp [history]
  | cons command rest ih =>
    unfold history
    split
    next => exact List.forall_mem_append.mpr ⟨h s command, ih _⟩
    next => exact h s command

/-- The end of a build shows nothing new of files that left the queue. -/
def Moment.Discreet (m : Moment τ) : Prop :=
  m.happening = .finished → ∀ file, ¬ m.before.queue.contains file →
    m.after.diagnostics.get? file = m.before.diagnostics.get? file

theorem buildMoments_discreet (compiler : Compiler σ τ) (n : Nat) (cancelled : Bool) (s : Session τ)
    (tool : σ) : ∀ m ∈ s.buildMoments compiler n cancelled tool, m.Discreet := by
  intro m hm hfinished file hqueued
  unfold Session.buildMoments at hm
  rcases List.mem_cons.mp hm with rfl | hm
  · cases hfinished
  rcases List.mem_append.mp hm with hm | hm
  · obtain ⟨q, t, hchain⟩ := workMoments_chain compiler n cancelled s tool
    obtain ⟨p, q, hstep⟩ := hchain.step_of_mem hm
    cases hstep <;> cases hfinished
  split at hm
  next => cases hm
  next =>
    rw [List.mem_singleton.mp hm] at hfinished
    cases hfinished
  next report s' tool' hbuild =>
    obtain rfl := List.mem_singleton.mp hm
    obtain ⟨r, hpasses, -, rfl⟩ := passes_of_build hbuild
    have hends := Running.passes_ends compiler n { session := s.start cancelled, tool }
    rw [hpasses] at hends
    obtain ⟨hchain, -⟩ : Running.Leads _ _ _ r := hends
    have hreached : lastSession (s.start cancelled) (s.workMoments compiler n cancelled tool) =
        r.session := hchain.lastSession_eq
    simp only [hreached] at hqueued ⊢
    rw [get?_finish hpasses, if_neg fun hboth => hqueued hboth.2]

theorem history_discreet (s : Session τ) (commands : List (Command σ τ)) :
    ∀ m ∈ history s commands, m.Discreet := by
  refine history_forall (fun s command m hm => ?_) s commands
  cases command with
  | event e =>
    intro hfinished
    rw [List.mem_singleton.mp hm] at hfinished
    cases hfinished
  | build compiler n cancelled tool => exact buildMoments_discreet compiler n cancelled s tool m hm

/-! ## What brings a file back -/

/-- The file is queued by an edit. -/
def Moment.Marks (m : Moment τ) (file : FileId) : Prop :=
  (∃ p, m.happening = .event (.markDirty p) ∧ (m.before.markDirty p).1 = file) ∨
  (m.happening = .event .markAllDirty ∧
    ∃ p ∈ m.before.workspace.sourceFiles m.before.tree, m.after.workspace.files.id? p = some file)

/-- No path with the number leads to a file. -/
def Session.Lacks (s : Session τ) (file : FileId) : Prop :=
  ∀ p, s.workspace.files.id? p = some file → ¬ s.tree.isFile p

/-- The file is not queued, and nothing is recorded of it. -/
structure Session.Forgets (s : Session τ) (file : FileId) : Prop where
  unqueued : ¬ s.queue.contains file
  unknown : Unknown file s.cache

namespace Session.Forgets

theorem markDirty (h : s.Forgets file) {p : Path} (hp : (s.markDirty p).1 ≠ file) :
    (s.markDirty p).2.Forgets file := by
  refine ⟨fun hqueued => ?_, h.unknown.modifyRecord hp _⟩
  rcases Queue.of_contains_enqueue hqueued with hfile | hqueued
  · exact hp hfile.symm
  · exact h.unqueued hqueued

theorem markEach (h : s.Forgets file) {files : List Path}
    (hfiles : ∀ p ∈ files, (s.markEach files).workspace.files.id? p ≠ some file) :
    (s.markEach files).Forgets file := by
  induction files generalizing s with
  | nil => exact h
  | cons p rest ih =>
    have hnumber : (s.markDirty p).1 ≠ file := by
      rintro rfl
      refine hfiles p (List.mem_cons_self ..) ?_
      have hgrows := (s.markDirty p).2.markEach_grows rest
      exact Workspace.FileRegistry.id?_of_prefix hgrows.paths (s.id?_markDirty p)
    exact ih (h.markDirty hnumber) fun q hq => hfiles q (List.mem_cons_of_mem p hq)

theorem removeFile (h : s.Forgets file) (hconsistent : s.cache.Consistent) (p : Path) :
    (s.removeFile p).2.Forgets file := by
  obtain ⟨-, -, hqueue, table, hcache⟩ := s.removeFile_eq p
  refine ⟨fun hqueued => ?_, ?_⟩
  · rw [hqueue] at hqueued
    rcases Queue.of_contains_enqueueAll hqueued with hdependent | hqueued
    · exact (h.unknown.no_edges hconsistent _).2.2.2 hdependent
    · exact h.unqueued (Queue.of_contains_remove hqueued)
  · rw [hcache]
    exact (h.unknown.withTable table).removeFile (hconsistent.withTable table) _

/-- A removed file is forgotten at once, also by the files that depended on it. -/
theorem of_removeFile (hconsistent : s.cache.Consistent) (p : Path) :
    (s.removeFile p).2.Forgets (s.register p).1 := by
  obtain ⟨-, -, hqueue, table, hcache⟩ := s.removeFile_eq p
  refine ⟨fun hqueued => ?_, ?_⟩
  · rw [hqueue] at hqueued
    rcases Queue.of_contains_enqueueAll hqueued with hdependent | hqueued
    · exact hconsistent.irreflexive _ ((hconsistent.symmetric _ _).mp hdependent)
    · obtain ⟨state, hstate⟩ := (Queue.contains_iff _ _).mp hqueued
      rw [Queue.state?_remove, if_pos rfl] at hstate
      cases hstate
  · rw [hcache]
    exact Unknown.removeFile_self _ _

theorem apply (h : s.Forgets file) (hconsistent : s.cache.Consistent) {e : Event}
    (hmarks : ¬ (⟨.event e, s, s.apply e⟩ : Moment τ).Marks file) : (s.apply e).Forgets file := by
  cases e with
  | markDirty p => exact h.markDirty fun hp => hmarks (.inl ⟨p, rfl, hp⟩)
  | markAllDirty => exact h.markEach fun p hp hnumber => hmarks (.inr ⟨rfl, p, hp, hnumber⟩)
  | removeFile p => exact h.removeFile hconsistent p
  | _ => exact ⟨h.unqueued, h.unknown⟩

end Session.Forgets

/-- An answer for another file records no edge to a file that is not there. -/
theorem settle_unknown {request : CompileRequest} {output : CompileOutput}
    (h : s.Forgets file) (hconsistent : s.cache.Consistent)
    (hlacks : (s.settle request output).Lacks file) :
    Unknown file (s.settle request output).cache := by
  by_cases haccepted : output.status = .success ∧ s.queue.contains request.file
  · obtain ⟨hsuccess, hqueued⟩ := haccepted
    have hne : request.file ≠ file := fun hfile => h.unqueued (hfile ▸ hqueued)
    have haccurate := settle_accurate hconsistent hsuccess hqueued
    have hedge : file ∉ (s.settle request output).cache.dependencies request.file := by
      intro hedge
      obtain ⟨-, root, -, p, hp, hnumber⟩ := (haccurate.edges file).mp hedge
      exact hlacks p hnumber (Workspace.isFile_of_foundSource hp)
    have hcache : (s.settle request output).cache =
        (s.learn request.file request.path request.project.name output).2.cache := by
      rw [Session.settle_accepted hsuccess hqueued]
      exact (s.acceptSuccess_eq request.path request.file output request.project.name).2.1
    obtain ⟨tree, table, artifacts, read, hlearn⟩ :=
      Session.learn_eq s request.path request.file request.project.name output
    rw [hcache, hlearn] at hedge ⊢
    refine (h.unknown.withTable table).update (hconsistent.withTable table) hne _ _ _ _ _ ?_
    rwa [← Dependency.Cache.dependencies_update (hconsistent.withTable table)]
  · rw [Session.settle_cache_of_refused haccepted]
    exact h.unknown

theorem Session.Forgets.settle {request : CompileRequest} {output : CompileOutput}
    (h : s.Forgets file) (hconsistent : s.cache.Consistent)
    (hafter : (s.settle request output).cache.Consistent)
    (hlacks : (s.settle request output).Lacks file) : (s.settle request output).Forgets file := by
  have hunknown := settle_unknown h hconsistent hlacks
  refine ⟨fun hqueued => ?_, hunknown⟩
  rw [s.settle_queue] at hqueued
  rcases Queue.of_contains_enqueueAll hqueued with hfan | hqueued
  · obtain ⟨-, hdependent⟩ := (s.mem_fanOut file request output).mp hfan
    exact (hunknown.no_edges hafter _).2.2.2 hdependent
  · exact h.unqueued (Queue.of_contains_settled hqueued)

/-! ## What a step preserves -/

/-- What stands of a file since it was removed: only an answer that it is at fault shows anything. -/
structure Forgotten (file : FileId) (seen : List (Moment τ)) (p : Phase) (s : Session τ) :
    Prop where
  sound : Sound p s
  forgets : s.Forgets file
  unopened : p ≠ .opening file
  uncalled : ∀ n ∈ seen, ¬ n.Calls file
  shown : ∀ found, s.diagnostics.get? file = some found → ∃ n ∈ seen, ∃ output,
    n.answer? file = some output ∧ output.status = .fatal ∧ output.diagnostics = found

namespace Forgotten

variable {seen : List (Moment τ)} {p q : Phase} {m : Moment τ}

/-- A step that neither shows anything of the file nor opens it. -/
theorem keep (h : Forgotten file seen p m.before) (hm : Step p m q)
    (hforgets : m.after.Forgets file) (hq : q ≠ .opening file) (hcalls : ¬ m.Calls file)
    (hshown : ∀ found, m.after.diagnostics.get? file = some found →
      m.before.diagnostics.get? file = some found) : Forgotten file (seen ++ [m]) q m.after := by
  refine ⟨h.sound.step hm, hforgets, hq, fun n hn => ?_, fun found hfound => ?_⟩
  · rcases List.mem_append.mp hn with hold | hnew
    · exact h.uncalled n hold
    · rwa [List.mem_singleton.mp hnew]
  · obtain ⟨n, hn, hanswer⟩ := h.shown found (hshown found hfound)
    exact ⟨n, List.mem_append_left _ hn, hanswer⟩

/-- An event shows nothing; a second removal hides what is shown. -/
theorem event {e : Event} (h : Forgotten file seen p s)
    (hm : Step p ⟨.event e, s, s.apply e⟩ p)
    (hmarks : ¬ (⟨.event e, s, s.apply e⟩ : Moment τ).Marks file) :
    Forgotten file (seen ++ [⟨.event e, s, s.apply e⟩]) p (s.apply e) := by
  refine h.keep hm (h.forgets.apply h.sound.consistent hmarks) h.unopened
    (by simp [Moment.Calls, Moment.called?]) fun found hfound => ?_
  by_cases hremoves : ∃ path, e = .removeFile path ∧ (s.register path).1 = file
  · obtain ⟨path, rfl, rfl⟩ := hremoves
    change (s.removeFile path).2.diagnostics.get? _ = _ at hfound
    rw [Session.diagnostics_removeFile, Dict.get?_erase, if_pos rfl] at hfound
    cases hfound
  · rwa [s.diagnostics_apply fun path he hfile => hremoves ⟨path, he, hfile⟩] at hfound

/-- The answer to the call during which the file was removed. -/
theorem settle {request : CompileRequest} (h : Forgotten request.file seen (.compiling request) s)
    (output : CompileOutput) (hlacks : (s.settle request output).Lacks request.file) :
    Forgotten request.file (seen ++ [⟨.settled request output, s, s.settle request output⟩])
      .building (s.settle request output) := by
  have hm : Step (.compiling request) ⟨.settled request output, s, s.settle request output⟩
      .building := .work (.settled request s output)
  have hforgets := h.forgets.settle h.sound.consistent (h.sound.step hm).consistent hlacks
  have hcalls : ¬ (⟨.settled request output, s, s.settle request output⟩ : Moment τ).Calls
      request.file := by simp [Moment.Calls, Moment.called?]
  have hdiagnostics := s.diagnostics_settle request output
  cases hstatus : output.status with
  | success =>
    simp only [hstatus, h.forgets.unqueued, Bool.false_eq_true, ↓reduceIte] at hdiagnostics
    refine h.keep hm hforgets (by simp) hcalls fun found hfound => ?_
    exact hdiagnostics ▸ hfound
  | retryable =>
    simp only [hstatus] at hdiagnostics
    refine h.keep hm hforgets (by simp) hcalls fun found hfound => ?_
    exact hdiagnostics ▸ hfound
  | fatal =>
    simp only [hstatus] at hdiagnostics
    refine ⟨h.sound.step hm, hforgets, by simp, fun n hn => ?_, fun found hfound => ?_⟩
    · rcases List.mem_append.mp hn with hold | hnew
      · exact h.uncalled n hold
      · rwa [List.mem_singleton.mp hnew]
    · rw [hdiagnostics, Dict.get?_put, if_pos rfl] at hfound
      refine ⟨_, List.mem_append_right _ (List.mem_singleton_self _), output, ?_, hstatus,
        Option.some.inj hfound⟩
      simp [Moment.answer?]

theorem step (h : Forgotten file seen p m.before) (hm : Step p m q) (hdiscreet : m.Discreet)
    (hlacks : m.after.Lacks file) (hmarks : ¬ m.Marks file) :
    Forgotten file (seen ++ [m]) q m.after := by
  have hstep := hm
  cases hm with
  | work hm =>
    cases hm with
    | @taken s g hdue =>
      have hg : g ≠ file := by
        rintro rfl
        exact h.forgets.unqueued (Queue.contains_of_isDue hdue)
      refine h.keep hstep ⟨?_, h.forgets.unknown⟩ (by simpa using hg)
        (by simp [Moment.Calls, Moment.called?]) fun _ hfound => hfound
      exact fun hqueued => h.forgets.unqueued (Queue.contains_setState _ ▸ hqueued)
    | @dropped s g hnone =>
      refine h.keep hstep ⟨?_, h.forgets.unknown⟩ (by simp)
        (by simp [Moment.Calls, Moment.called?]) fun _ hfound => hfound
      exact fun hqueued => h.forgets.unqueued (Queue.of_contains_remove hqueued)
    | @called s t g request hsome =>
      obtain ⟨rfl, -, -, hqueue, hcache⟩ := Session.request_eq_some hsome
      have hne : request.file ≠ file := fun hfile => h.unopened (congrArg Phase.opening hfile)
      refine h.keep hstep ⟨hqueue ▸ h.forgets.unqueued, hcache ▸ h.forgets.unknown⟩ (by simp)
        (by simpa [Moment.Calls, Moment.called?] using hne) fun found hfound => ?_
      rwa [Session.request_session hsome] at hfound
    | event request s e => exact h.event hstep hmarks
    | settled request s output =>
      by_cases hfile : request.file = file
      · subst hfile
        exact h.settle output hlacks
      · refine h.keep hstep ?_ (by simp) (by simp [Moment.Calls, Moment.called?])
          fun found hfound => ?_
        · exact h.forgets.settle h.sound.consistent (h.sound.step hstep).consistent hlacks
        · rwa [s.diagnostics_settle_of_ne hfile output] at hfound
  | event s e => exact h.event hstep hmarks
  | started s cancelled =>
    refine h.keep hstep ⟨?_, h.forgets.unknown⟩ (by simp)
      (by simp [Moment.Calls, Moment.called?]) fun _ hfound => hfound
    exact fun hqueued => h.forgets.unqueued (Queue.contains_resetFailed ▸ hqueued)
  | finished s diagnostics interrupted lastBuild =>
    refine h.keep hstep ⟨h.forgets.unqueued, h.forgets.unknown⟩ (by simp)
      (by simp [Moment.Calls, Moment.called?]) fun found hfound => ?_
    rwa [hdiscreet rfl file h.forgets.unqueued] at hfound
  | failed hp s e =>
    exact h.keep hstep h.forgets (by simp) (by simp [Moment.Calls, Moment.called?])
      fun _ hfound => hfound

theorem chain {moments : List (Moment τ)} (h : Forgotten file [] p s)
    (hchain : Chain Step p s moments q t) (hdiscreet : ∀ m ∈ moments, m.Discreet)
    (hlacks : ∀ m ∈ moments, m.after.Lacks file) (hmarks : ∀ m ∈ moments, ¬ m.Marks file) :
    Forgotten file moments q t := by
  have hall : ∀ m ∈ moments, m.Discreet ∧ m.after.Lacks file ∧ ¬ m.Marks file :=
    fun m hm => ⟨hdiscreet m hm, hlacks m hm, hmarks m hm⟩
  exact (hchain.restrict hall).invariant (I := fun seen p t => Forgotten file seen p t)
    (fun hm h => h.step hm.1 hm.2.1 hm.2.2.1 hm.2.2.2) [] h

/-- A removal, of which nothing has come yet. -/
theorem of_removes (hsound : Sound p m.before) (hm : Step p m q) (hremoves : m.Removes file) :
    Forgotten file [] q m.after := by
  obtain ⟨path, hhappening, rfl⟩ := hremoves
  have hafter : m.after = (m.before.removeFile path).2 := hm.after_event hhappening
  refine ⟨hsound.step hm, ?_, ?_, by simp, fun found hfound => ?_⟩
  · rw [hafter]
    exact .of_removeFile hsound.consistent path
  · cases hm with
    | work hm => cases hm <;> cases hhappening; simp
    | event => simp
    | _ => cases hhappening
  · rw [hafter, Session.diagnostics_removeFile, Dict.get?_erase, if_pos rfl] at hfound
    cases hfound

end Forgotten

/-! ## Histories -/

/-- Since a source was removed it was neither there nor marked. Then it is not queued, nothing is
recorded of it, no edge leads to it, and no compilation of it began. What is shown of it is the
answer to a compilation that was under way, which says that the source is at fault. -/
theorem removed_file_forgotten (tree : FileTree) (workspace : Workspace) (table : Table Classpath)
    (systemPrefixes : List String) (options : Options) (commands : List (Command σ τ))
    {before later rest : List (Moment τ)} {m : Moment τ}
    (hsplit : history (Session.new tree workspace table systemPrefixes options) commands =
      before ++ m :: (later ++ rest))
    (hremoves : m.Removes file) (hlacks : ∀ n ∈ later, n.after.Lacks file)
    (hmarks : ∀ n ∈ later, ¬ n.Marks file) :
    let s := lastSession m.after later
    ¬ s.queue.contains file ∧ s.cache.records.get? file = none ∧
      (∀ g, file ∉ s.cache.dependencies g ∧ file ∉ s.cache.dependents g) ∧
      (∀ n ∈ later, ¬ n.Calls file) ∧
      ∀ found, s.diagnostics.get? file = some found → ∃ n ∈ later, ∃ request output,
        n.happening = .settled request output ∧ request.file = file ∧
        output.status = .fatal ∧ output.diagnostics = found := by
  intro s
  obtain ⟨last, hchain⟩ :=
    history_chain (Session.new tree workspace table systemPrefixes options) commands
  have hdiscreet :=
    history_discreet (Session.new tree workspace table systemPrefixes options) commands
  rw [hsplit] at hchain hdiscreet
  obtain ⟨p, next, hbefore, hstep, hchain⟩ := hchain.split_cons
  obtain ⟨q, t, hlater, -⟩ := hchain.split
  have hsound : Sound p m.before :=
    (new_sound tree workspace table systemPrefixes options).chain hbefore
  have hdiscreet (n : Moment τ) (hn : n ∈ later) : n.Discreet := by
    refine hdiscreet n (List.mem_append_right _ (List.mem_cons_of_mem _ ?_))
    exact List.mem_append_left _ hn
  have hforgotten := (Forgotten.of_removes hsound hstep hremoves).chain hlater hdiscreet hlacks hmarks
  have hs : s = t := hlater.lastSession_eq
  rw [hs]
  have hedges := hforgotten.forgets.unknown.no_edges hforgotten.sound.consistent
  refine ⟨hforgotten.forgets.unqueued, hforgotten.forgets.unknown,
    fun g => ⟨(hedges g).2.2.1, (hedges g).2.2.2⟩, hforgotten.uncalled, fun found hfound => ?_⟩
  obtain ⟨n, hn, output, hanswer, hfatal, hfound⟩ := hforgotten.shown found hfound
  unfold Moment.answer? at hanswer
  split at hanswer
  next request answer hhappening =>
    split_ifs at hanswer with hfile
    obtain rfl := Option.some.inj hanswer
    exact ⟨n, hn, request, answer, hhappening, hfile, hfatal, hfound⟩
  next => cases hanswer

/-- Nothing but directories. -/
def holdsNoFile (u : FileTree) : Bool :=
  u.entries.entries.all fun e => match e.2 with
    | .directory _ => true
    | .file _ _ => false

theorem not_isFile_of_holdsNoFile {u : FileTree} (h : holdsNoFile u) (p : Path) :
    ¬ u.isFile p := by
  intro hp
  unfold FileTree.isFile at hp
  split at hp
  next content modified hlookup =>
    unfold FileTree.lookup at hlookup
    rcases hresolve : u.resolve p with fault | place
    · rw [hresolve] at hlookup
      cases hlookup
    simp only [hresolve, bind, Except.bind] at hlookup
    split at hlookup
    next entry hentry =>
      cases hlookup
      unfold FileTree.entry? at hentry
      split_ifs at hentry
      · cases hentry
      · cases List.all_eq_true.mp h _ (Dict.mem_entries_of_get? hentry)
    next => cases hlookup
  next => cases hp

/-- A source is deleted, and its removal reported, while it is compiled. -/
def vanishing : List (Command (Dict String Nat) Unit) :=
  let p : Path := ⟨"src/A.java"⟩
  let script : Script := ⟨[⟨p, none, false, [.delete p, .removeFile p]⟩], fun _ _ => []⟩
  [.event (.write p []), .event (.markDirty p), .build (scriptedCompiler script) 2 false .empty]

theorem vanishing_runs : ∃ (before later : List (Moment Unit)) (m : Moment Unit),
    history Session.sample vanishing = before ++ m :: (later ++ []) ∧ m.Removes 0 ∧
      (∀ n ∈ later, n.after.Lacks 0 ∧ ¬ n.Marks 0) ∧
      ((lastSession m.after later).diagnosticsOf 0).map Diagnostic.message =
        ["No such file or directory (os error 2)"] := by
  have hruns : (history Session.sample vanishing)[6]?.any (fun m => m.Removes 0 ∧
      (∀ n ∈ (history Session.sample vanishing).drop 7,
        holdsNoFile n.after.tree ∧ n.event?.isNone) ∧
      ((lastSession m.after ((history Session.sample vanishing).drop 7)).diagnosticsOf 0).map
        Diagnostic.message = ["No such file or directory (os error 2)"]) := by
    decide +kernel
  obtain ⟨m, hm, hfacts⟩ := (Option.any_eq_true _ _).mp hruns
  obtain ⟨hremoves, hlater, hshown⟩ := of_decide_eq_true hfacts
  refine ⟨(history Session.sample vanishing).take 6, _, m, ?_, hremoves, fun n hn => ?_, hshown⟩
  · obtain ⟨hlength, rfl⟩ := List.getElem?_eq_some_iff.mp hm
    rw [List.append_nil, ← List.drop_eq_getElem_cons hlength, List.take_append_drop]
  · obtain ⟨hbare, hevent⟩ := hlater n hn
    refine ⟨fun p _ => not_isFile_of_holdsNoFile hbare p, ?_⟩
    rintro (⟨p, hhappening, -⟩ | ⟨hhappening, -⟩) <;> simp [Moment.event?, hhappening] at hevent

/-- The answer to the call during which a source was removed shows something of it. -/
theorem answer_outlives_removal : ∃ (before later : List (Moment Unit)) (m : Moment Unit),
    history Session.sample vanishing = before ++ m :: (later ++ []) ∧ m.Removes 0 ∧
      (∀ n ∈ later, n.after.Lacks 0 ∧ ¬ n.Marks 0) ∧
      (lastSession m.after later).diagnosticsOf 0 ≠ [] := by
  obtain ⟨before, later, m, hsplit, hremoves, hlater, hshown⟩ := vanishing_runs
  refine ⟨before, later, m, hsplit, hremoves, hlater, fun hnone => ?_⟩
  rw [hnone] at hshown
  cases hshown

theorem vanished_file_forgotten : ∃ (later : List (Moment Unit)) (m n : Moment Unit),
    m.Removes 0 ∧ ¬ (lastSession m.after later).queue.contains 0 ∧
      (lastSession m.after later).cache.records.get? 0 = none ∧
      n ∈ later ∧ ∃ request output, n.happening = .settled request output ∧ request.file = 0 ∧
        output.status = .fatal ∧
        output.diagnostics.map Diagnostic.message = ["No such file or directory (os error 2)"] := by
  obtain ⟨before, later, m, hsplit, hremoves, hlater, hshown⟩ := vanishing_runs
  obtain ⟨hunqueued, hunknown, -, -, hanswer⟩ := removed_file_forgotten _ _ _ _ _ vanishing hsplit
    hremoves (fun n hn => (hlater n hn).1) fun n hn => (hlater n hn).2
  unfold Session.diagnosticsOf at hshown
  rcases hfound : (lastSession m.after later).diagnostics.get? 0 with _ | found
  · rw [hfound] at hshown
    cases hshown
  · rw [hfound] at hshown
    obtain ⟨n, hn, request, output, hhappening, hfile, hfatal, rfl⟩ := hanswer found hfound
    exact ⟨later, m, n, hremoves, hunqueued, hunknown, hn, request, output, hhappening, hfile,
      hfatal, hshown⟩

end Rebuild.Build
