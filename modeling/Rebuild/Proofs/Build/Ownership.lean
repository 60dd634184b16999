import Mathlib
import Rebuild.Build.LineCompiler
import Rebuild.Proofs.Build.Records

/-! Whose artifacts are deleted. Main statement: after a successful compilation the artifacts of a
source are those that it produced, and they stay while other sources are compiled and removed, as
long as no name of a type has a `$` in it. -/
namespace Rebuild.Build

variable {σ τ : Type} {s t : Session τ} {p q : Phase} {m : Moment τ}

/-! ## What is deleted -/

/-- The artifacts that are deleted at an answer: those that were not produced again, and those that
were produced for a source that was removed meanwhile. -/
def Session.discards (s : Session τ) (request : CompileRequest) (output : CompileOutput) :
    List Path :=
  if output.status ≠ .success then []
  else if s.queue.contains request.file then
    if output.artifacts.isEmpty then []
    else s.workspace.staleArtifacts s.tree request.path output.artifacts
  else output.artifacts

namespace Moment

/-- The source whose artifacts are taken care of: it was removed, or it was compiled. -/
def handled? (m : Moment τ) : Option Path :=
  match m.happening with
  | .event (.removeFile p) => some p
  | .settled request output => if output.status = .success then some request.path else none
  | _ => none

/-- The artifacts that are deleted. -/
def discarded (m : Moment τ) : List Path :=
  match m.happening with
  | .event (.removeFile p) => m.before.workspace.artifactsForSource m.before.tree p
  | .settled request output => m.before.discards request output
  | _ => []

/-- Does something happen from outside, other than the report of a removal? -/
def outside (m : Moment τ) : Bool := m.event?.isSome && m.handled?.isNone

/-- The compiler reports artifacts of the source only. -/
def honest (m : Moment τ) : Bool :=
  match m.happening with
  | .settled request output => output.status ≠ .success || output.artifacts.all fun a =>
    (m.before.tree.target? a).all (m.before.workspace.claims m.before.tree request.path)
  | _ => true

end Moment

theorem removeFile_tree (s : Session τ) (path : Path) : (s.removeFile path).2.tree =
    Session.deleteFiles s.tree (s.workspace.artifactsForSource s.tree path) := by
  change (Session.evictSource _ path).tree = _
  rw [Session.evictSource_tree]
  change Session.deleteFiles s.tree ((s.register path).2.workspace.artifactsForSource s.tree path) = _
  rw [(s.register_grows path).artifactsForSource_eq]

theorem settle_tree (s : Session τ) (request : CompileRequest) (output : CompileOutput) :
    (s.settle request output).tree = Session.deleteFiles s.tree (s.discards request output) := by
  unfold Session.discards
  by_cases hsuccess : output.status = .success
  · simp only [hsuccess, ne_eq, not_true_eq_false, ↓reduceIte]
    by_cases hqueued : s.queue.contains request.file
    · rw [if_pos hqueued, Session.settle_accepted hsuccess hqueued, acceptSuccess_tree]
      change (s.takeArtifacts request.path output).2.tree = _
      unfold Session.takeArtifacts
      split
      next => rfl
      next => exact Session.removeStale_tree _ _ _
    · simp only [Session.settle, hsuccess, Session.onSuccess, hqueued, Bool.false_eq_true,
        ↓reduceIte]
  · rw [if_pos hsuccess]
    cases hstatus : output.status with
    | success => exact absurd hstatus hsuccess
    | retryable => simp [Session.settle, hstatus, Session.conclude, Session.deleteFiles]
    | fatal => simp [Session.settle, hstatus, Session.onFatal, Session.conclude, Session.deleteFiles]

/-- Whatever happens within the scheduler, only the artifacts that are discarded go. -/
theorem Step.tree_eq (hm : Step p m q) (houtside : m.outside = false) :
    m.after.tree = Session.deleteFiles m.before.tree m.discarded := by
  have hevent {s : Session τ} {e : Event}
      (houtside : (⟨.event e, s, s.apply e⟩ : Moment τ).outside = false) :
      (s.apply e).tree = Session.deleteFiles s.tree
        (⟨.event e, s, s.apply e⟩ : Moment τ).discarded := by
    cases e with
    | removeFile path => exact removeFile_tree s path
    | _ => cases houtside
  cases hm with
  | work hm =>
    cases hm with
    | called hsome => exact request_tree hsome
    | event request s e => exact hevent houtside
    | settled request s output => exact settle_tree s request output
    | _ => rfl
  | event s e => exact hevent houtside
  | _ => rfl

theorem Step.content?_eq (hm : Step p m q) (houtside : m.outside = false)
    (hproper : m.before.tree.Proper) (place : List String) :
    m.after.tree.content? place =
      if ∃ a ∈ m.discarded, m.before.tree.target? a = some place then none
      else m.before.tree.content? place := by
  rw [hm.tree_eq houtside]
  exact (FileTree.foldl_deleteFile_spec hproper m.discarded).2.2 place

/-- What is deleted bears the name of the source that is taken care of. -/
theorem Moment.claims_of_discarded (hproper : m.before.tree.Proper) (hhonest : m.honest)
    {a : Path} {place : List String} (ha : a ∈ m.discarded)
    (htarget : m.before.tree.target? a = some place) :
    ∃ source, m.handled? = some source ∧
      m.before.workspace.claims m.before.tree source place := by
  unfold discarded at ha
  unfold handled?
  split at ha
  next path hhappening =>
    exact ⟨path, rfl, Workspace.claims_of_mem_artifactsForSource hproper ha htarget⟩
  next request output hhappening =>
    unfold Session.discards at ha
    split_ifs at ha with hsuccess hqueued hempty
    · cases ha
    · cases ha
    · refine ⟨request.path, if_pos (not_not.mp hsuccess), ?_⟩
      exact Workspace.claims_of_mem_artifactsForSource hproper (List.mem_filter.mp ha).1 htarget
    · refine ⟨request.path, if_pos (not_not.mp hsuccess), ?_⟩
      unfold honest at hhonest
      simp only [hhappening, hsuccess, decide_false, Bool.false_or] at hhonest
      have hclaims := List.all_eq_true.mp hhonest a ha
      rwa [htarget] at hclaims
  next => cases ha

/-! ## What stays -/

/-- A source that is taken care of has another home than the given one, and a type with a simple
name without `$`. -/
def Moment.sparesHome (m : Moment τ) (home : List String × String) : Bool :=
  m.handled?.all fun source => (m.before.workspace.home? m.before.tree source).all fun other =>
    other ≠ home && '$' ∉ other.2.toList

theorem Moment.sparesHome_iff {home : List String × String} : m.sparesHome home ↔
    ∀ source other, m.handled? = some source →
      m.before.workspace.home? m.before.tree source = some other →
      other ≠ home ∧ '$' ∉ other.2.toList := by
  simp only [sparesHome, Option.all_eq_true, Bool.and_eq_true, decide_eq_true_eq]
  exact ⟨fun h source other hs ho => h source hs other ho, fun h source hs other ho =>
    h source other hs ho⟩

/-- A place that bears the name of a type keeps its file while other sources are taken care of. -/
theorem Step.content?_of_spares (hm : Step p m q) (hproper : m.before.tree.Proper)
    {directory : List String} {stem name : String} (hstem : '$' ∉ stem.toList)
    (hbears : Workspace.bears stem name) (hhonest : m.honest)
    (hspares : m.sparesHome (directory, stem)) (houtside : m.outside = false) :
    m.after.tree.content? (directory ++ [name]) =
      m.before.tree.content? (directory ++ [name]) := by
  rw [hm.content?_eq houtside hproper, if_neg]
  rintro ⟨a, ha, htarget⟩
  obtain ⟨source, hhandled, hclaims⟩ := Moment.claims_of_discarded hproper hhonest ha htarget
  obtain ⟨above, other, found, hhome, hplace, hfound⟩ := Workspace.claims_iff.mp hclaims
  obtain ⟨hne, hother⟩ := Moment.sparesHome_iff.mp hspares source _ hhandled hhome
  obtain ⟨rfl, hname⟩ := List.append_inj' hplace rfl
  obtain rfl := (List.cons.inj hname).1
  exact hne (by rw [Workspace.bears_unique hfound hbears hother hstem])

/-- A source was compiled successfully. Then the files found as its artifacts are those that it
produced. While only other sources are compiled and removed, and nobody else touches them, the
files at places that bear the name of its type stay as they are, if no name of a type that is
compiled or removed has a `$` in it, and the compiler reports artifacts of the source only. -/
theorem artifacts_kept {tree : FileTree} (hproper : tree.Proper) (workspace : Workspace)
    (table : Table Classpath) (systemPrefixes : List String) (options : Options)
    (commands : List (Command σ τ)) {before later rest : List (Moment τ)}
    {request : CompileRequest} {output : CompileOutput} {directory : List String} {stem : String}
    (hsplit : history (Session.new tree workspace table systemPrefixes options) commands =
      before ++ m :: (later ++ rest))
    (hm : m.happening = .settled request output) (hsuccess : output.status = .success)
    (hqueued : m.before.queue.contains request.file) (hproduced : output.artifacts ≠ [])
    (hhome : m.after.workspace.home? m.after.tree request.path = some (directory, stem))
    (hstem : '$' ∉ stem.toList)
    (hothers : ∀ n ∈ later, n.honest ∧ n.sparesHome (directory, stem))
    (houtside : ∀ n ∈ later, n.outside → ∀ place,
      m.after.workspace.claims m.after.tree request.path place →
        n.after.tree.content? place = n.before.tree.content? place) :
    (∀ a ∈ m.after.workspace.artifactsForSource m.after.tree request.path,
      m.after.tree.isFile a → ∃ b ∈ output.artifacts, a.same b) ∧
    ∀ place, m.after.workspace.claims m.after.tree request.path place →
      (lastSession m.after later).tree.content? place = m.after.tree.content? place := by
  obtain ⟨last, hchain⟩ :=
    history_chain (Session.new tree workspace table systemPrefixes options) commands
  rw [hsplit] at hchain
  obtain ⟨p, next, hbefore, hstep, hchain⟩ := hchain.split_cons
  obtain ⟨q, t, hlater, -⟩ := hchain.split
  have hbeforeProper : m.before.tree.Proper := hbefore.proper hproper
  refine ⟨fun a ha hfile => ?_, fun place hclaims => ?_⟩
  · have hafter := hstep.after_settled hm
    have htree := settle_tree m.before request output
    have hgrows := m.before.settle_grows request output
    unfold Session.discards at htree
    rw [if_neg (not_not.mpr hsuccess), if_pos hqueued,
      if_neg (by simpa using hproduced)] at htree
    rw [hafter, htree] at ha hfile
    rw [hgrows.artifactsForSource_eq] at ha
    exact Workspace.produced_of_remains hbeforeProper ha hfile
  · rw [hlater.lastSession_eq]
    have hstay := hlater.restrict (P := fun n => n.honest ∧ n.sparesHome (directory, stem) ∧
      (n.outside → n.after.tree.content? place = n.before.tree.content? place)) fun n hn =>
        ⟨(hothers n hn).1, (hothers n hn).2, fun hout => houtside n hn hout place hclaims⟩
    obtain ⟨above, own, name, hown, rfl, hbears⟩ := Workspace.claims_iff.mp hclaims
    obtain ⟨rfl, rfl⟩ := Prod.mk.inj (Option.some.inj (hhome.symm.trans hown))
    have hend := hstay.invariant (I := fun _ _ u => u.tree.Proper ∧
      u.tree.content? (directory ++ [name]) = m.after.tree.content? (directory ++ [name])) ?_ []
      ⟨hstep.proper hbeforeProper, rfl⟩
    · exact hend.2
    · rintro _ _ n _ ⟨hn, hhonest, hspares, hout⟩ ⟨hu, hkept⟩
      refine ⟨hn.proper hu, Eq.trans ?_ hkept⟩
      by_cases houtside : n.outside
      · exact hout houtside
      · exact hn.content?_of_spares hu hstem hbears hhonest hspares
          (Bool.eq_false_iff.mpr houtside)

/-- Two sources, of which one loses its nested type before both are compiled again; then the other
is removed. -/
def neighbours : List (Command Unit Unit) :=
  [.event (.write ⟨"src/A.java"⟩ "inner X".toUTF8.toList), .event (.write ⟨"src/B.java"⟩ []),
    .event .markAllDirty, .build lineCompiler 2 false (),
    .event (.write ⟨"src/A.java"⟩ []), .event .markAllDirty, .build lineCompiler 2 false (),
    .event (.delete ⟨"src/B.java"⟩), .event (.removeFile ⟨"src/B.java"⟩)]

/-- The moments at which the compilation of the first one ends again, and those that follow. -/
theorem neighbours_run : ∃ (before later : List (Moment Unit)) (m : Moment Unit)
    (request : CompileRequest) (output : CompileOutput),
    history Session.sample neighbours = before ++ m :: (later ++ []) ∧
      m.happening = .settled request output ∧ output.status = .success ∧
      m.before.queue.contains request.file ∧ request.path = ⟨"src/A.java"⟩ ∧
      output.artifacts = [⟨"out/A.class"⟩] ∧
      m.before.tree.isFile ⟨"out/A$X.class"⟩ ∧
      m.after.workspace.home? m.after.tree request.path = some (["out"], "A") ∧
      later.filterMap Moment.handled? = [⟨"src/B.java"⟩, ⟨"src/B.java"⟩] ∧
      (∀ n ∈ later, n.honest ∧ n.sparesHome (["out"], "A")) ∧
      ∀ n ∈ later, n.outside → ∀ place, m.after.workspace.claims m.after.tree request.path place →
        n.after.tree.content? place = n.before.tree.content? place := by
  have hruns : (history Session.sample neighbours)[20]?.any (fun m => match m.happening with
      | .settled request output =>
        let later := (history Session.sample neighbours).drop 21
        output.status = .success ∧ m.before.queue.contains request.file ∧
        output.artifacts.map Path.text = ["out/A.class"] ∧ request.path.text = "src/A.java" ∧
        m.before.tree.isFile ⟨"out/A$X.class"⟩ ∧
        m.after.workspace.home? m.after.tree request.path = some (["out"], "A") ∧
        (later.filterMap Moment.handled?).map Path.text = ["src/B.java", "src/B.java"] ∧
        ∀ n ∈ later, (n.honest ∧ n.sparesHome (["out"], "A")) ∧ (n.outside →
          ∀ place ∈ n.before.tree.entries.keys ++ n.after.tree.entries.keys,
            m.after.workspace.claims m.after.tree request.path place →
              n.after.tree.content? place = n.before.tree.content? place)
      | _ => False) := by
    decide +kernel
  obtain ⟨m, hm, hfacts⟩ := (Option.any_eq_true _ _).mp hruns
  split at hfacts
  next request output hhappening =>
    obtain ⟨hsuccess, hqueued, hartifacts, hpath, hfile, hhome, hhandled, hlater⟩ :=
      of_decide_eq_true hfacts
    refine ⟨(history Session.sample neighbours).take 20, _, m, request, output, ?_, hhappening,
      hsuccess, hqueued, congrArg Path.mk hpath, eq_of_map_text hartifacts, hfile, hhome,
      eq_of_map_text hhandled,
      fun n hn => (hlater n hn).1, fun n hn hout place hclaims => ?_⟩
    · obtain ⟨hlength, rfl⟩ := List.getElem?_eq_some_iff.mp hm
      rw [List.append_nil, ← List.drop_eq_getElem_cons hlength, List.take_append_drop]
    · refine (FileTree.content?_eq_of_keys fun hplace => ?_).symm
      exact ((hlater n hn).2 hout place hplace hclaims).symm
  next => cases hfacts

theorem neighbour_artifact_kept :
    ∃ (m : Moment Unit) (later : List (Moment Unit)) (request : CompileRequest)
      (output : CompileOutput), m.happening = .settled request output ∧
      output.artifacts = [⟨"out/A.class"⟩] ∧ m.before.tree.isFile ⟨"out/A$X.class"⟩ ∧
      (∀ a ∈ m.after.workspace.artifactsForSource m.after.tree request.path,
        m.after.tree.isFile a → a.same ⟨"out/A.class"⟩) ∧
      later.filterMap Moment.handled? = [⟨"src/B.java"⟩, ⟨"src/B.java"⟩] ∧
      (lastSession m.after later).tree.content? ["out", "A.class"] =
        m.after.tree.content? ["out", "A.class"] := by
  obtain ⟨before, later, m, request, output, hsplit, hhappening, hsuccess, hqueued, hpath,
    hartifacts, hfile, hhome, hhandled, hothers, houtside⟩ := neighbours_run
  obtain ⟨hproduced, hkept⟩ := artifacts_kept .empty _ _ _ _ neighbours hsplit hhappening hsuccess
    hqueued (by simp [hartifacts]) hhome (by decide) hothers houtside
  refine ⟨m, later, request, output, hhappening, hartifacts, hfile, fun a ha hisFile => ?_,
    hhandled, hkept _ ?_⟩
  · obtain ⟨b, hb, hsame⟩ := hproduced a ha hisFile
    rw [hartifacts, List.mem_singleton] at hb
    rwa [hb] at hsame
  · exact Workspace.claims_iff.mpr ⟨["out"], "A", "A.class", hhome, rfl, by decide⟩

/-- The types of two sources, where the name of one reads like that of a type nested in the other. -/
def likeNested : List (Command Unit Unit) :=
  [.event (.write ⟨"src/A.java"⟩ []), .event (.write ⟨"src/A$B.java"⟩ []), .event .markAllDirty]

/-- The artifact of one source is deleted when the other is compiled, though both are there. -/
theorem like_nested_artifact_lost :
    ∃ report s' tool', (Session.sample.after likeNested).build lineCompiler 2 false () =
        some (.ok (report, s', tool')) ∧
      report.outcome.succeeded = true ∧
      (∃ m ∈ (Session.sample.after likeNested).buildMoments lineCompiler 2 false (),
        ∃ request output, m.happening = .settled request output ∧
          request.path = ⟨"src/A$B.java"⟩ ∧ output.status = .success ∧
          output.artifacts = [⟨"out/A$B.class"⟩] ∧ m.after.tree.isFile ⟨"out/A$B.class"⟩) ∧
      s'.tree.isFile ⟨"src/A$B.java"⟩ ∧ ¬ s'.tree.isFile ⟨"out/A$B.class"⟩ := by
  have hruns : (((Session.sample.after likeNested).build lineCompiler 2 false ()).bind
        Except.toOption).any (fun (report, s', _) => report.outcome.succeeded ∧
          s'.tree.isFile ⟨"src/A$B.java"⟩ ∧ ¬ s'.tree.isFile ⟨"out/A$B.class"⟩) ∧
      ((Session.sample.after likeNested).buildMoments lineCompiler 2 false ()).any fun m =>
        match m.happening with
        | .settled request output => request.path.text = "src/A$B.java" ∧
            output.status = .success ∧ output.artifacts.map Path.text = ["out/A$B.class"] ∧
            m.after.tree.isFile ⟨"out/A$B.class"⟩
        | _ => False := by
    decide +kernel
  obtain ⟨hends, hwritten⟩ := hruns
  obtain ⟨⟨report, s', tool'⟩, hreturned, hfacts⟩ := (Option.any_eq_true _ _).mp hends
  obtain ⟨result, hbuild, hresult⟩ := Option.bind_eq_some_iff.mp hreturned
  obtain rfl := eq_ok_of_toOption hresult
  obtain ⟨hsucceeded, hsource, hlost⟩ := of_decide_eq_true hfacts
  refine ⟨report, s', tool', hbuild, hsucceeded, ?_, hsource, hlost⟩
  obtain ⟨m, hm, hfacts⟩ := List.any_eq_true.mp hwritten
  split at hfacts
  next request output hhappening =>
    obtain ⟨hpath, hsuccess, hartifacts, hfile⟩ := of_decide_eq_true hfacts
    exact ⟨m, hm, request, output, hhappening, congrArg Path.mk hpath, hsuccess,
      eq_of_map_text hartifacts, hfile⟩
  next => cases hfacts

end Rebuild.Build
