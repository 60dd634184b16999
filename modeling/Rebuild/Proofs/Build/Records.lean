import Mathlib
import Rebuild.Build.LineCompiler
import Rebuild.Proofs.Build.Retention
import Rebuild.Proofs.Build.Soundness
import Rebuild.Proofs.Build.Trees

/-! What stands in the record of a file that is not queued. Main statements: its edges lead where its
last compilation found the types that it refers to, and none of the files there was removed or came
to show other declarations since. -/
namespace Rebuild.Build

open Dependency.Cache (SameReferences rootTypes targetsIn)

variable {σ τ : Type} {file : FileId} {s t : Session τ}

/-! ## Where types are found -/

/-- The outermost types that a file refers to, without the system's. -/
def Session.rootsOf (s : Session τ) (file : FileId) : List String :=
  rootTypes s.cache.systemPrefixes (s.cache.record file).referenced

/-- The edges of a file lead to the sources in a tree where a project finds the types that the file
refers to. -/
structure Accurate (file : FileId) (u : FileTree) (project : String) (s : Session τ) : Prop where
  numbered : ∀ root ∈ s.rootsOf file, ∀ p, s.workspace.foundSource u project root = some p →
    ∃ g, s.workspace.files.id? p = some g
  edges : ∀ g, g ∈ s.cache.dependencies file ↔ g ≠ file ∧ ∃ root ∈ s.rootsOf file,
    ∃ p, s.workspace.foundSource u project root = some p ∧ s.workspace.files.id? p = some g

/-- The answers for some types are the numbers of the sources that are found. -/
theorem answers_fileForTypeIn (u : FileTree) (project : String) (names : List String)
    (w : Workspace) :
    let world := ((targetsIn (Workspace.fileForTypeIn u project) names).run w).2
    w.Grows world ∧
    (∀ name ∈ names, ∀ p, w.foundSource u project name = some p →
      ∃ g, world.files.id? p = some g) ∧
    ∀ g, (∃ name, (name, some g) ∈
        Dependency.answers (Workspace.fileForTypeIn u project) names w) ↔
      ∃ name ∈ names, ∃ p, w.foundSource u project name = some p ∧
        world.files.id? p = some g := by
  induction names generalizing w with
  | nil => exact ⟨Workspace.Grows.refl w, by simp, by simp [Dependency.answers]⟩
  | cons first rest ih =>
    let asked := (Workspace.fileForTypeIn u project first).run w
    let world := ((targetsIn (Workspace.fileForTypeIn u project) rest).run asked.2).2
    obtain ⟨hrest, hnumbered, hanswers⟩ := ih asked.2
    have hasked : w.Grows asked.2 := Workspace.fileForTypeIn_grows u project first w
    have hfound := fun name => hasked.foundSource_eq u project name
    have hfirst := Workspace.fileForTypeIn_eq u project first w
    change w.Grows world ∧ (∀ name ∈ first :: rest, ∀ p, w.foundSource u project name = some p →
      ∃ g, world.files.id? p = some g) ∧ ∀ g, (∃ name, (name, some g) ∈ (first, asked.1) ::
        Dependency.answers (Workspace.fileForTypeIn u project) rest asked.2) ↔ _
    simp only [hfound] at hnumbered hanswers
    -- The number of the first answer stands to the end.
    have hworld : ∀ p, w.foundSource u project first = some p →
        ∃ g, asked.1 = some g ∧ world.files.id? p = some g := by
      intro p hp
      rw [hp] at hfirst
      obtain ⟨g, hg, hid⟩ := hfirst
      exact ⟨g, hg, Workspace.FileRegistry.id?_of_prefix hrest.paths hid⟩
    refine ⟨hasked.trans hrest, fun name hname p hp => ?_, fun g => ?_⟩
    · rcases List.mem_cons.mp hname with rfl | hname
      · obtain ⟨g, -, hg⟩ := hworld p hp
        exact ⟨g, hg⟩
      · exact hnumbered name hname p hp
    · simp only [List.mem_cons, Prod.mk.injEq, exists_or, or_and_right, hanswers]
      refine or_congr_left ?_
      constructor
      · rintro ⟨_, -, hg⟩
        rcases hp : w.foundSource u project first with _ | p
        · rw [hp] at hfirst
          cases hfirst.symm.trans hg.symm
        · obtain ⟨g', hg', hid⟩ := hworld p hp
          obtain rfl : g = g' := Option.some.inj (hg.trans hg')
          exact ⟨first, rfl, p, hp, hid⟩
      · rintro ⟨_, rfl, p, hp, hid⟩
        obtain ⟨g', hg', hid'⟩ := hworld p hp
        obtain rfl : g = g' := Option.some.inj (hid.symm.trans hid')
        exact ⟨_, rfl, hg'.symm⟩

/-- What is learnt of a file is accurate. -/
theorem learn_accurate (h : s.cache.Consistent) (file : FileId) (p : Path) (project : String)
    (output : CompileOutput) :
    Accurate file (s.learn file p project output).2.tree project
      (s.learn file p project output).2 := by
  obtain ⟨tree, table, artifacts, read, hlearn⟩ := Session.learn_eq s p file project output
  let c : Dependency.Cache _ τ := { s.cache with table }
  let sources : Dependency.SourceMap Workspace := Workspace.fileForTypeIn tree project
  have hc : c.Consistent := h.withTable table
  have hworld := Dependency.Cache.update_world (Classpath.finder tree) read sources file artifacts
    c s.workspace
  obtain ⟨hgrows, hnumbered, hanswers⟩ := answers_fileForTypeIn tree project
    (rootTypes c.systemPrefixes (c.findings (Classpath.finder tree) read artifacts).referenced)
    s.workspace
  have hroots : (s.learn file p project output).2.rootsOf file =
      rootTypes c.systemPrefixes (c.findings (Classpath.finder tree) read artifacts).referenced := by
    obtain ⟨table', -, hupdated⟩ := Dependency.Cache.update_eq (Classpath.finder tree) read sources
      file artifacts c s.workspace
    rw [hlearn]
    unfold Session.rootsOf
    simp only
    rw [hupdated, Dependency.Cache.systemPrefixes_absorb,
      (Dependency.Cache.record_absorb _ _ _ _).2]
  rw [← hworld] at hgrows hnumbered hanswers
  have hfound := fun root => hgrows.foundSource_eq tree project root
  refine ⟨fun root hroot q hq => ?_, fun g => ?_⟩
  · rw [hroots] at hroot
    rw [hlearn] at hq ⊢
    exact hnumbered root hroot q ((hfound root).symm.trans hq)
  · rw [hroots, hlearn]
    change g ∈ (c.update (Classpath.finder tree) read sources file artifacts
      s.workspace).2.1.dependencies file ↔ _
    rw [Dependency.Cache.dependencies_update hc, Dependency.Cache.mem_foundTargets, hanswers]
    simp only [← hfound]
    rfl

/-- Later states of a session keep what is accurate, as far as they keep the record. -/
theorem Accurate.transfer {u : FileTree} {project : String} (h : Accurate file u project s)
    (hgrows : s.workspace.Grows t.workspace) (hsame : SameReferences file s.cache t.cache)
    (hprefixes : t.cache.systemPrefixes = s.cache.systemPrefixes) :
    Accurate file u project t := by
  have hroots : t.rootsOf file = s.rootsOf file := by
    unfold Session.rootsOf
    rw [hprefixes, hsame.referenced]
  have hfound := fun root => hgrows.foundSource_eq u project root
  have hid {p : Path} {g : FileId} (hp : s.workspace.files.id? p = some g) :
      t.workspace.files.id? p = some g :=
    Workspace.FileRegistry.id?_of_prefix hgrows.paths hp
  refine ⟨fun root hroot p hp => ?_, fun g => ?_⟩
  · rw [hroots] at hroot
    obtain ⟨g, hg⟩ := h.numbered root hroot p ((hfound root).symm.trans hp)
    exact ⟨g, hid hg⟩
  · rw [hsame.dependencies, h.edges g, hroots]
    refine and_congr_right fun _ => exists_congr fun root => and_congr_right fun hroot =>
      exists_congr fun p => ?_
    rw [hfound root]
    refine and_congr_right fun hp => ⟨hid, fun hg => ?_⟩
    obtain ⟨g', hg'⟩ := h.numbered root hroot p hp
    rwa [← Option.some.inj ((hid hg').symm.trans hg)]

/-! ## What a step leaves as it is -/

/-- A successful compilation of a queued file. Its record is made anew. -/
def Moment.Learns (m : Moment τ) (file : FileId) : Prop :=
  ∃ request output, m.happening = .settled request output ∧ request.file = file ∧
    output.status = .success ∧ m.before.queue.contains file

theorem apply_sameReferences (h : s.cache.Consistent) {e : Event}
    (hremoves : ∀ p, e = .removeFile p →
      (s.register p).1 ≠ file ∧ (s.register p).1 ∉ s.cache.dependencies file) :
    SameReferences file s.cache (s.apply e).cache := by
  cases e with
  | markDirty p => exact SameReferences.markStale file _ s.cache
  | markAllDirty =>
    exact Session.markEach_induction (P := fun t => SameReferences file s.cache t.cache)
      (SameReferences.refl file s.cache)
      fun t p _ ht => ht.trans (SameReferences.markStale file _ t.cache)
  | removeFile p =>
    obtain ⟨hne, hg⟩ := hremoves p rfl
    obtain ⟨-, -, -, table, hcache⟩ := s.removeFile_eq p
    change SameReferences file s.cache (s.removeFile p).2.cache
    rw [hcache]
    exact (SameReferences.withTable file s.cache table).trans
      (SameReferences.removeFile (h.withTable table) hne hg)
  | _ => exact SameReferences.refl file s.cache

theorem settle_sameReferences {request : CompileRequest} {output : CompileOutput}
    (h : ¬ (request.file = file ∧ output.status = .success ∧ s.queue.contains file)) :
    SameReferences file s.cache (s.settle request output).cache := by
  unfold Session.settle
  cases hstatus : output.status with
  | success =>
    simp only [Session.onSuccess]
    split
    next hqueued =>
      have hne : file ≠ request.file := fun hfile => h ⟨hfile.symm, hstatus, hfile ▸ hqueued⟩
      rw [(s.acceptSuccess_eq request.path request.file output request.project.name).2.1]
      obtain ⟨tree, table, artifacts, read, hlearn⟩ :=
        Session.learn_eq s request.path request.file request.project.name output
      rw [hlearn]
      exact (SameReferences.withTable file s.cache table).trans
        (SameReferences.update (Classpath.finder tree) read
          (Workspace.fileForTypeIn tree request.project.name) artifacts { s.cache with table }
          s.workspace hne)
    next => exact SameReferences.refl file s.cache
  | retryable => exact SameReferences.refl file s.cache
  | fatal => exact SameReferences.refl file s.cache

namespace Step

variable {p q : Phase} {m : Moment τ}

theorem sameReferences (hm : Step p m q) (h : m.before.cache.Consistent)
    (hlearns : ¬ m.Learns file)
    (hremoves : ∀ g, m.Removes g → g ≠ file ∧ g ∉ m.before.cache.dependencies file) :
    SameReferences file m.before.cache m.after.cache := by
  have hevent {s : Session τ} {e : Event} (hs : s.cache.Consistent)
      (hremoves : ∀ g, (⟨.event e, s, s.apply e⟩ : Moment τ).Removes g →
        g ≠ file ∧ g ∉ s.cache.dependencies file) :
      SameReferences file s.cache (s.apply e).cache :=
    apply_sameReferences hs fun p hp => hremoves _ ⟨p, by rw [hp], rfl⟩
  cases hm with
  | work hm =>
    cases hm with
    | @called s t _ request hsome =>
      obtain ⟨-, -, -, -, hcache⟩ := Session.request_eq_some hsome
      exact hcache ▸ SameReferences.refl file s.cache
    | event request s e => exact hevent h hremoves
    | settled request s output =>
      exact settle_sameReferences fun ⟨hfile, hstatus, hqueued⟩ =>
        hlearns ⟨request, output, rfl, hfile, hstatus, hqueued⟩
    | _ => exact SameReferences.refl file _
  | event s e => exact hevent h hremoves
  | _ => exact SameReferences.refl file _

theorem systemPrefixes (hm : Step p m q) :
    m.after.cache.systemPrefixes = m.before.cache.systemPrefixes := by
  have hevent (s : Session τ) (e : Event) :
      (s.apply e).cache.systemPrefixes = s.cache.systemPrefixes := by
    cases e with
    | markAllDirty =>
      exact Session.markEach_induction
        (P := fun t => t.cache.systemPrefixes = s.cache.systemPrefixes) rfl fun _ _ _ ht => ht
    | removeFile p =>
      obtain ⟨-, -, -, table, hcache⟩ := s.removeFile_eq p
      change (s.removeFile p).2.cache.systemPrefixes = _
      rw [hcache]
      exact Dependency.Cache.systemPrefixes_clearFile { s.cache with table } _
    | _ => rfl
  cases hm with
  | work hm =>
    cases hm with
    | called hsome =>
      obtain ⟨-, -, -, -, hcache⟩ := Session.request_eq_some hsome
      rw [hcache]
    | event request s e => exact hevent s e
    | settled request s output =>
      change (s.settle request output).cache.systemPrefixes = s.cache.systemPrefixes
      rcases s.settle_world request output with ⟨-, hcache⟩ | ⟨-, hcache⟩
      · rw [hcache]
      · obtain ⟨tree, table, artifacts, read, hlearn⟩ :=
          Session.learn_eq s request.path request.file request.project.name output
        obtain ⟨table', -, hupdated⟩ := Dependency.Cache.update_eq (Classpath.finder tree) read
          (Workspace.fileForTypeIn tree request.project.name) request.file artifacts
          { s.cache with table } s.workspace
        rw [hcache, hlearn]
        simp only
        rw [hupdated, Dependency.Cache.systemPrefixes_absorb]
    | _ => rfl
  | event s e => exact hevent s e
  | _ => rfl

/-- A file of a project leaves the queue when it is removed or learnt. -/
theorem learns_of_leaves (hm : Step p m q) (hproject : m.before.workspace.InProject file)
    (hqueued : m.before.queue.contains file) (hleft : ¬ m.after.queue.contains file)
    (hremoves : ¬ m.Removes file) : m.Learns file := by
  have hevent {s : Session τ} {e : Event} (hqueued : s.queue.contains file)
      (hremoves : ¬ (⟨.event e, s, s.apply e⟩ : Moment τ).Removes file) :
      (s.apply e).queue.contains file :=
    (apply_keeps s fun p hp hfile => hremoves ⟨p, by rw [hp], hfile⟩).contains hqueued
  cases hm with
  | work hm =>
    cases hm with
    | taken hdue => exact absurd ((Queue.contains_setState _).trans hqueued) hleft
    | @dropped s g hnone =>
      refine absurd ?_ hleft
      have hne : g ≠ file := fun hg => Session.request_eq_none hnone (hg ▸ hproject)
      obtain ⟨state, hstate⟩ := (Queue.contains_iff _ _).mp hqueued
      refine (Queue.contains_iff _ _).mpr ⟨state, ?_⟩
      change (s.queue.remove g).state? file = _
      rw [Queue.state?_remove, if_neg hne, hstate]
    | called hsome =>
      obtain ⟨-, -, -, hqueue, -⟩ := Session.request_eq_some hsome
      exact absurd (hqueue ▸ hqueued) hleft
    | event request s e => exact absurd (hevent hqueued hremoves) hleft
    | settled request s output =>
      have hkeeps := settle_keeps file s request output
      have hsettled := s.queue.state?_settled request.file file output.status
      obtain ⟨state, hstate⟩ := (Queue.contains_iff _ _).mp hqueued
      by_cases hown : request.file = file ∧ s.queue.state? request.file = some .compiling
      · rw [if_pos hown] at hsettled
        rcases hstatus : output.status with _ | _ | _
        · exact ⟨request, output, rfl, hown.1, hstatus, hqueued⟩
        · refine absurd (hkeeps.contains ((Queue.contains_iff _ _).mpr ⟨.retrying, ?_⟩)) hleft
          rw [hsettled, hstatus]
          rfl
        · refine absurd (hkeeps.contains ((Queue.contains_iff _ _).mpr ⟨.failed, ?_⟩)) hleft
          rw [hsettled, hstatus]
          rfl
      · rw [if_neg hown] at hsettled
        refine absurd (hkeeps.contains ((Queue.contains_iff _ _).mpr ⟨state, ?_⟩)) hleft
        rw [hsettled, hstate]
  | event s e => exact absurd (hevent hqueued hremoves) hleft
  | started s cancelled => exact absurd (Queue.contains_resetFailed.trans hqueued) hleft
  | finished => exact absurd hqueued hleft
  | failed => exact absurd hqueued hleft

end Step

/-! ## What stands -/

/-- The file with a number lies in a project. -/
def LiesIn (w : Workspace) (file : FileId) (project : Project) : Prop :=
  ∃ path, w.files.path? file = some path ∧ w.projectForSource? path = some project

theorem LiesIn.grows {w w' : Workspace} {project : Project} (h : LiesIn w file project)
    (hw : w.Grows w') : LiesIn w' file project := by
  obtain ⟨path, hpath, hproject⟩ := h
  refine ⟨path, Workspace.FileRegistry.path?_of_prefix hw.paths hpath, ?_⟩
  rw [hw.projectForSource?_eq, hproject]

theorem Step.requested {p q : Phase} {m : Moment τ} (hm : Step p m q)
    (h : ∀ request, p = .compiling request →
      LiesIn m.before.workspace request.file request.project) :
    ∀ request, q = .compiling request → LiesIn m.after.workspace request.file request.project := by
  intro request hq
  have hgrows := hm.grows
  cases hm with
  | work hm =>
    cases hm with
    | called hsome =>
      cases hq
      obtain ⟨hfile, -⟩ := Session.request_eq_some hsome
      exact LiesIn.grows ⟨_, hfile ▸ Session.request_source hsome⟩ hgrows
    | event request s e => exact (h _ hq).grows hgrows
    | _ => cases hq
  | _ => cases hq

/-- What stands in the record of a file since the moment at which it was learnt: its edges are as
they were found, and the files that they lead to were left alone. -/
structure Standing (file : FileId) (m : Moment τ) (since : List (Moment τ)) (s : Session τ) :
    Prop where
  learns : m.Learns file
  last : ∀ n ∈ since, ¬ n.Learns file
  accurate : ∃ project, LiesIn s.workspace file project ∧
    Accurate file m.after.tree project.name s
  undisturbed : ∀ n ∈ since, ∀ g ∈ s.cache.dependencies file, ¬ n.Removes g ∧ ¬ n.Changes g

theorem settle_accurate {request : CompileRequest} {output : CompileOutput}
    (h : s.cache.Consistent) (hsuccess : output.status = .success)
    (hqueued : s.queue.contains request.file) :
    Accurate request.file (s.settle request output).tree request.project.name
      (s.settle request output) := by
  have hsettle := Session.settle_accepted hsuccess hqueued
  obtain ⟨hworkspace, hcache, -⟩ :=
    s.acceptSuccess_eq request.path request.file output request.project.name
  have hlearnt := learn_accurate h request.file request.path request.project.name output
  rw [hsettle, acceptSuccess_tree]
  refine hlearnt.transfer ?_ ?_ ?_
  · rw [hworkspace]
    exact Workspace.Grows.refl _
  · rw [hcache]
    exact SameReferences.refl _ _
  · rw [hcache]

/-- A file that was queued and not removed is queued still, or what it was found to depend on
stands. -/
structure Kept (file : FileId) (seen : List (Moment τ)) (p : Phase) (s : Session τ) : Prop where
  sound : Sound p s
  project : s.workspace.InProject file
  requested : ∀ request, p = .compiling request →
    LiesIn s.workspace request.file request.project
  stands : s.queue.contains file ∨
    ∃ earlier m since, seen = earlier ++ m :: since ∧ Standing file m since s

namespace Kept

variable {p q : Phase} {m : Moment τ} {seen : List (Moment τ)}

/-- The moment at which a file leaves the queue is the one at which it is learnt. -/
theorem standing_of_leaves (h : Kept file seen p m.before) (hm : Step p m q)
    (hqueued : m.before.queue.contains file) (hleft : ¬ m.after.queue.contains file)
    (hremoves : ¬ m.Removes file) : Standing file m [] m.after := by
  have hlearns := hm.learns_of_leaves h.project hqueued hleft hremoves
  refine ⟨hlearns, by simp, ?_, by simp⟩
  obtain ⟨request, output, hhappening, rfl, hsuccess, -⟩ := hlearns
  have hafter := hm.after_settled hhappening
  have hlies : LiesIn m.before.workspace request.file request.project := by
    cases hm with
    | work hm =>
      cases hm <;> cases hhappening
      exact h.requested _ rfl
    | _ => cases hhappening
  refine ⟨request.project, hlies.grows hm.grows, ?_⟩
  rw [hafter]
  exact settle_accurate h.sound.consistent hsuccess hqueued

/-- Whatever happens to a file that an unqueued file depends on queues that file. -/
theorem standing_step {n : Moment τ} {since : List (Moment τ)} (h : Kept file seen p m.before)
    (hm : Step p m q) (hstanding : Standing file n since m.before)
    (hbefore : ¬ m.before.queue.contains file) (hafter : ¬ m.after.queue.contains file)
    (hremoves : ¬ m.Removes file) : Standing file n (since ++ [m]) m.after := by
  have hlearns : ¬ m.Learns file := fun ⟨_, _, _, _, _, hqueued⟩ => hbefore hqueued
  have hnot : ¬ m.Enqueues file := fun henqueues =>
    hafter (Queue.contains_of_isDue (hm.isDue_of_enqueues henqueues))
  have hconsistent := h.sound.consistent
  have hgone (g : FileId) (hg : g ∈ m.before.cache.dependencies file) : ¬ m.Removes g := by
    rintro ⟨path, hhappening, rfl⟩
    refine hnot (.inr (.inr (.inl ⟨path, hhappening, ?_⟩)))
    rw [(m.before.removeFile_eq path).1]
    exact (hconsistent.symmetric file _).mpr hg
  have hsame := hm.sameReferences hconsistent hlearns fun g hg =>
    ⟨fun hfile => hremoves (hfile ▸ hg), fun hdependency => hgone g hdependency hg⟩
  have hkept (g : FileId) (hg : g ∈ m.before.cache.dependencies file) : ¬ m.Changes g := by
    intro hchanges
    refine hnot (.inr (.inr (.inr ⟨g, hchanges, ?_⟩)))
    refine ((h.sound.step hm).consistent.symmetric file g).mpr ?_
    rw [hsame.dependencies]
    exact hg
  obtain ⟨project, hlies, haccurate⟩ := hstanding.accurate
  refine ⟨hstanding.learns, ?_, ⟨project, hlies.grows hm.grows,
    haccurate.transfer hm.grows hsame hm.systemPrefixes⟩, ?_⟩
  · intro other hother
    rcases List.mem_append.mp hother with hold | hnew
    · exact hstanding.last other hold
    · rwa [List.mem_singleton.mp hnew]
  · intro other hother g hg
    rw [hsame.dependencies] at hg
    rcases List.mem_append.mp hother with hold | hnew
    · exact hstanding.undisturbed other hold g hg
    · rw [List.mem_singleton.mp hnew]
      exact ⟨hgone g hg, hkept g hg⟩

theorem step (h : Kept file seen p m.before) (hm : Step p m q) (hremoves : ¬ m.Removes file) :
    Kept file (seen ++ [m]) q m.after := by
  refine ⟨h.sound.step hm, h.project.grows hm.grows, hm.requested h.requested, ?_⟩
  by_cases hafter : m.after.queue.contains file
  · exact .inl hafter
  refine .inr ?_
  by_cases hbefore : m.before.queue.contains file
  · exact ⟨seen, m, [], rfl, h.standing_of_leaves hm hbefore hafter hremoves⟩
  · obtain ⟨earlier, n, since, rfl, hstanding⟩ := h.stands.resolve_left hbefore
    exact ⟨earlier, n, since ++ [m], by simp,
      h.standing_step hm hstanding hbefore hafter hremoves⟩

theorem chain {moments : List (Moment τ)} (h : Kept file [] p s)
    (hchain : Chain Step p s moments q t) (hremoves : ∀ m ∈ moments, ¬ m.Removes file) :
    Kept file moments q t :=
  (hchain.restrict hremoves).invariant (I := fun seen p s => Kept file seen p s)
    (fun hm h => h.step hm.1 hm.2) [] h

end Kept

/-! ## Histories -/

variable (tree : FileTree) (workspace : Workspace) (table : Table Classpath)
  (systemPrefixes : List String) (options : Options) (commands : List (Command σ τ))
  {before later : List (Moment τ)} {m₀ : Moment τ}

theorem standing_of_unqueued
    (hsplit : history (Session.new tree workspace table systemPrefixes options) commands =
      before ++ m₀ :: later)
    (henqueues : m₀.Enqueues file) (hproject : m₀.after.workspace.InProject file)
    (hkept : ∀ m ∈ later, ¬ m.Removes file)
    (hdone : ¬ ((Session.new tree workspace table systemPrefixes options).after
      commands).queue.contains file) :
    ∃ earlier m since, later = earlier ++ m :: since ∧ Standing file m since
      ((Session.new tree workspace table systemPrefixes options).after commands) := by
  obtain ⟨q, hchain⟩ :=
    history_chain (Session.new tree workspace table systemPrefixes options) commands
  rw [hsplit] at hchain
  obtain ⟨p, next, hbefore, hstep, hlater⟩ := hchain.split_cons
  have hsound : Sound p m₀.before :=
    (new_sound tree workspace table systemPrefixes options).chain hbefore
  have hrequested : ∀ request, p = .compiling request →
      LiesIn m₀.before.workspace request.file request.project :=
    hbefore.invariant (I := fun _ p s => ∀ request, p = .compiling request →
      LiesIn s.workspace request.file request.project) (fun hm h => hm.requested h) [] (by simp)
  have hqueued := Queue.contains_of_isDue (hstep.isDue_of_enqueues henqueues)
  have hstart : Kept file [] next m₀.after :=
    ⟨hsound.step hstep, hproject, hstep.requested hrequested, .inl hqueued⟩
  exact (hstart.chain hlater hkept).stands.resolve_left hdone

/-- Since a file was queued it was not removed, and it is not queued any more. Then its edges lead
where the types that it refers to were found when it was last compiled. They are accurate as long
as these types are found in the same places. -/
theorem edges_as_last_found
    (hsplit : history (Session.new tree workspace table systemPrefixes options) commands =
      before ++ m₀ :: later)
    (henqueues : m₀.Enqueues file) (hproject : m₀.after.workspace.InProject file)
    (hkept : ∀ m ∈ later, ¬ m.Removes file)
    (hdone : ¬ ((Session.new tree workspace table systemPrefixes options).after
      commands).queue.contains file) :
    let s := (Session.new tree workspace table systemPrefixes options).after commands
    ∃ earlier m since project, later = earlier ++ m :: since ∧ m.Learns file ∧
      (∀ n ∈ since, ¬ n.Learns file) ∧ LiesIn s.workspace file project ∧
      Accurate file m.after.tree project.name s ∧
      ((∀ root ∈ s.rootsOf file, s.workspace.foundSource s.tree project.name root =
          s.workspace.foundSource m.after.tree project.name root) →
        Accurate file s.tree project.name s) := by
  intro s
  obtain ⟨earlier, m, since, hlater, hstanding⟩ := standing_of_unqueued tree workspace table
    systemPrefixes options commands hsplit henqueues hproject hkept hdone
  obtain ⟨project, hlies, haccurate⟩ := hstanding.accurate
  refine ⟨earlier, m, since, project, hlater, hstanding.learns, hstanding.last, hlies, haccurate,
    fun hfound => ⟨fun root hroot p hp => ?_, fun g => ?_⟩⟩
  · exact haccurate.numbered root hroot p (hfound root hroot ▸ hp)
  · rw [haccurate.edges g]
    refine and_congr_right fun _ => exists_congr fun root => and_congr_right fun hroot => ?_
    rw [hfound root hroot]

instance (m : Moment τ) (file : FileId) : Decidable (m.Removes file) :=
  decidable_of_iff
    ((match m.happening with
      | .event (.removeFile p) => decide ((m.before.register p).1 = file)
      | _ => false) = true)
    (by unfold Moment.Removes; split <;> simp_all)

/-- Two files are written, and the second one refers to the first. -/
def pair : List Event :=
  [.write ⟨"src/B.java"⟩ [], .markDirty ⟨"src/B.java"⟩,
    .write ⟨"src/A.java"⟩ "uses B".toUTF8.toList]

/-- The second one is queued, and both are built. -/
def pairBuilt : List (Command Unit Unit) :=
  pair.map .event ++ [.event (.markDirty ⟨"src/A.java"⟩), .build lineCompiler 2 false ()]

def pairEdit : Moment Unit :=
  let s := Session.sample.applyAll pair
  ⟨.event (.markDirty ⟨"src/A.java"⟩), s, s.apply (.markDirty ⟨"src/A.java"⟩)⟩

theorem history_pairBuilt : history Session.sample pairBuilt = Session.sample.eventMoments pair ++
    pairEdit :: history pairEdit.after [.build lineCompiler 2 false ()] := by
  unfold pairBuilt
  rw [history_events, history_event]
  rfl

theorem enqueues_pairEdit : pairEdit.Enqueues 1 := .inl ⟨⟨"src/A.java"⟩, rfl, rfl⟩

theorem inProject_pairEdit : pairEdit.after.workspace.InProject 1 :=
  ⟨⟨"src/A.java"⟩, rfl, _, List.mem_singleton_self _, by decide⟩

theorem pairBuilt_runs :
    (∀ m ∈ history pairEdit.after [.build lineCompiler 2 false ()], ¬ m.Removes 1) ∧
    ¬ (Session.sample.after pairBuilt).queue.contains 1 ∧
    (Session.sample.after pairBuilt).cache.dependencies 1 = [0] ∧
    (Session.sample.after pairBuilt).rootsOf 1 = ["B"] := by
  decide +kernel

theorem edge_of_pair :
    let s := Session.sample.after pairBuilt
    (∃ project, LiesIn s.workspace 1 project ∧
      ∃ m : Moment Unit, m.Learns 1 ∧ Accurate 1 m.after.tree project.name s) ∧
      s.cache.dependencies 1 = [0] := by
  intro s
  have hruns := pairBuilt_runs
  have hsample : Session.sample.after pairBuilt = (Session.new _ _ _ _ _).after pairBuilt := rfl
  have hs : s = (Session.new _ _ _ _ _).after pairBuilt := rfl
  rw [hsample] at hruns
  rw [hs]
  obtain ⟨hkept, hdone, hdependencies, -⟩ := hruns
  obtain ⟨earlier, m, since, project, -, hlearns, -, hlies, haccurate, -⟩ :=
    edges_as_last_found _ _ _ _ _ pairBuilt history_pairBuilt enqueues_pairEdit
      inProject_pairEdit hkept hdone
  exact ⟨⟨project, hlies, m, hlearns, haccurate⟩, hdependencies⟩

theorem eq_ok_of_toOption {ε α : Type} {result : Except ε α} {a : α}
    (h : result.toOption = some a) : result = .ok a := by
  cases result with
  | error e => cases h
  | ok b => exact congrArg Except.ok (Option.some.inj h)

theorem eq_of_map_text {paths more : List Path} (h : paths.map Path.text = more.map Path.text) :
    paths = more :=
  List.map_injective_iff.mpr (fun _ _ hpq => congrArg Path.mk hpq) h

/-- A project with a type that comes from a library. -/
def Session.withLibrary : Session Unit :=
  let project : Project :=
    { name := "app", sourceRoot := ⟨"src"⟩, buildRoot := ⟨"out"⟩, libraries := [.directory ⟨"lib"⟩] }
  (Session.new {} { projects := ⟨[("app", project)]⟩ } { finder := ⟨project.ownClasspath, .empty⟩ }
    [] {}).apply
      (.write ⟨"lib/B.class"⟩ (Artifact.ClassDescription.encode { thisClass := "B" }))

/-- The source of a type that another file refers to is removed, and the library's type takes its
place. Then the source is there again. -/
def reappearing : List (Command Unit Unit) :=
  [.event (.write ⟨"src/B.java"⟩ []), .event .markAllDirty,
    .event (.write ⟨"src/A.java"⟩ "uses B".toUTF8.toList), .event (.markDirty ⟨"src/A.java"⟩),
    .build lineCompiler 2 false (),
    .event (.delete ⟨"src/B.java"⟩), .event (.removeFile ⟨"src/B.java"⟩),
    .build lineCompiler 2 false (),
    .event (.write ⟨"src/B.java"⟩ []), .event (.markDirty ⟨"src/B.java"⟩)]

theorem reappearing_source_gets_no_edge :
    ∃ report s' tool', (Session.withLibrary.after reappearing).build lineCompiler 2 false () =
        some (.ok (report, s', tool')) ∧
      report.outcome.succeeded = true ∧ s'.workspace.files.id? ⟨"src/A.java"⟩ = some 1 ∧
      s'.cache.dependencies 1 = [] ∧ ¬ Accurate 1 s'.tree "app" s' := by
  have hruns : (((Session.withLibrary.after reappearing).build lineCompiler 2 false ()).bind
      Except.toOption).any (fun (report, s', _) => report.outcome.succeeded ∧
        s'.workspace.files.id? ⟨"src/A.java"⟩ = some 1 ∧
        s'.workspace.files.id? ⟨"src/B.java"⟩ = some 0 ∧ s'.rootsOf 1 = ["B"] ∧
        (s'.workspace.foundSource s'.tree "app" "B").map Path.text = some "src/B.java" ∧
        s'.cache.dependencies 1 = []) := by
    decide +kernel
  obtain ⟨⟨report, s', tool'⟩, hreturned, hfacts⟩ := (Option.any_eq_true _ _).mp hruns
  obtain ⟨result, hbuild, hresult⟩ := Option.bind_eq_some_iff.mp hreturned
  obtain rfl := eq_ok_of_toOption hresult
  obtain ⟨hsucceeded, hA, hB, hroots, hfound, hdependencies⟩ := of_decide_eq_true hfacts
  obtain ⟨p, hp, htext⟩ := Option.map_eq_some_iff.mp hfound
  obtain rfl : p = ⟨"src/B.java"⟩ := congrArg Path.mk htext
  refine ⟨report, s', tool', hbuild, hsucceeded, hA, hdependencies, fun haccurate => ?_⟩
  have hedge : 0 ∈ s'.cache.dependencies 1 := (haccurate.edges 0).mpr
    ⟨by decide, "B", by rw [hroots]; exact List.mem_singleton_self _, _, hp, hB⟩
  rw [hdependencies] at hedge
  cases hedge

end Rebuild.Build
