import Mathlib
import Rebuild.Proofs.Workspace.Reach

/-! What a workspace remembers of its projects. Main statement: whatever was asked of a workspace
and changed in it, it answers as one that is built anew from its projects. -/
namespace Rebuild

theorem Dict.entries_put_of_notMem {κ : Type} {α : Type} [DecidableEq κ] {d : Dict κ α} {k : κ}
    (h : k ∉ d.keys) (a : α) : (d.put k a).entries = d.entries ++ [(k, a)] := by
  obtain ⟨entries⟩ := d
  simp only [Dict.keys, Dict.put] at h ⊢
  induction entries with
  | nil => rfl
  | cons e rest ih =>
    obtain ⟨l, b⟩ := e
    rw [List.map_cons, List.mem_cons, not_or] at h
    rw [Dict.putEntries, if_neg (Ne.symm h.1), ih h.2, List.cons_append]

namespace Workspace

/-! ## Calls -/

/-- What is asked of a workspace, and how its projects are changed. -/
inductive Call where
  | addProject (p : Project)
  | setDependencies (name : String) (dependsOn : List String)
  | closure (name : String)
  | classpath (name : String)
  | classFinder (name : String)
  | unitedClasspath

inductive Answer where
  | changed
  | names (names : List String)
  | entries (entries : List ClasspathEntry)
  | finder (classpath : Classpath)

/-- The answer to a call and the workspace after it, unless the call is rejected. -/
def perform (w : Workspace) : Call → Except WorkspaceError (Answer × Workspace)
  | .addProject p => (w.addProject p).map fun w' => (.changed, w')
  | .setDependencies name dependsOn =>
    (w.setDependencies name dependsOn).map fun w' => (.changed, w')
  | .closure name => (Answer.names <$> closure name).run w
  | .classpath name => (Answer.entries <$> classpath name).run w
  | .classFinder name => (Answer.finder <$> classFinder name).run w
  | .unitedClasspath => (Answer.entries <$> unitedClasspath).run w

def answer (w : Workspace) (call : Call) : Except WorkspaceError Answer :=
  (w.perform call).map Prod.fst

/-- The workspace after a call; one that is rejected leaves it as it was. -/
def after (w : Workspace) (call : Call) : Workspace :=
  match w.perform call with
  | .ok (_, w') => w'
  | .error _ => w

def run (w : Workspace) (calls : List Call) : Workspace := calls.foldl after w

/-- Why a call is rejected: a new project has a name that is taken, or the named project is not
there. -/
def rejection? (w : Workspace) : Call → Option WorkspaceError
  | .addProject p =>
    if w.projects.contains p.name then some (.duplicateProject p.name) else none
  | .setDependencies name _ | .closure name | .classpath name | .classFinder name =>
    if w.projects.contains name then none else some (.unknownProject name)
  | .unitedClasspath => none

/-! ## Coherence -/

/-- A workspace with the same projects that has computed nothing yet. -/
def forget (w : Workspace) : Workspace := { w with closures := .empty, classpaths := .empty }

/-- What was computed is what would be computed now. -/
structure Coherent (w : Workspace) : Prop where
  named : w.Named
  nodup : w.projects.keys.Nodup
  closures : ∀ name, w.closureOf name = w.forget.closureOf name
  classpaths : ∀ name, w.classpathOf name = w.forget.classpathOf name

variable {w w' : Workspace} {name other : String}

theorem closureOf_forget (w : Workspace) (name : String) : w.forget.closureOf name =
    if w.projects.contains name then some (w.reached name) else none := rfl

theorem classpathOf_forget (w : Workspace) (name : String) : w.forget.classpathOf name =
    (w.forget.closureOf name).map w.joinedClasspath := rfl

theorem forget_closureOf_congr (h : w'.projects = w.projects) :
    w'.forget.closureOf name = w.forget.closureOf name := by
  have hreached : w'.reached name = w.reached name := by
    unfold reached directDependencies searchBound project?
    rw [h]
  rw [closureOf_forget, closureOf_forget, h, hreached]

theorem forget_classpathOf_congr (h : w'.projects = w.projects) :
    w'.forget.classpathOf name = w.forget.classpathOf name := by
  have hjoined : w'.joinedClasspath = w.joinedClasspath := by
    funext names
    unfold joinedClasspath
    have hproject : w'.project? = w.project? := by
      funext other
      rw [project?, project?, h]
    rw [hproject]
  rw [classpathOf_forget, classpathOf_forget, forget_closureOf_congr h, hjoined]

/-- A workspace without projects. -/
def new (sourceExtension artifactExtension : String) : Workspace :=
  { sourceExtension, artifactExtension }

theorem Coherent.new (sourceExtension artifactExtension : String) :
    (Workspace.new sourceExtension artifactExtension).Coherent where
  named := fun e he => by cases he
  nodup := List.nodup_nil
  closures _ := rfl
  classpaths _ := rfl

theorem Coherent.grows (h : w.Coherent) (hw : w.Grows w') : w'.Coherent where
  named := h.named.grows hw
  nodup := hw.projects ▸ h.nodup
  closures name := by
    rw [hw.closureOf, h.closures, forget_closureOf_congr hw.projects]
  classpaths name := by
    rw [hw.classpathOf, h.classpaths, forget_classpathOf_congr hw.projects]

theorem Coherent.of_closures (h : w.Coherent) {known : List String}
    (hknown : w.closures.get? name = some known) :
    w.projects.contains name ∧ known = w.reached name := by
  have hclosure : w.closureOf name = some known := by rw [closureOf, hknown]
  rw [h.closures, closureOf_forget] at hclosure
  split_ifs at hclosure with hproject
  exact ⟨hproject, (Option.some.inj hclosure).symm⟩

theorem Coherent.of_classpaths (h : w.Coherent) {known : List ClasspathEntry}
    (hknown : w.classpaths.get? name = some known) :
    w.projects.contains name ∧ known = w.joinedClasspath (w.reached name) := by
  have hclasspath : w.classpathOf name = some known := by rw [classpathOf, hknown]
  rw [h.classpaths, classpathOf_forget, closureOf_forget] at hclasspath
  split_ifs at hclasspath with hproject
  · exact ⟨hproject, (Option.some.inj hclasspath).symm⟩
  · cases hclasspath

/-! ## Changed projects -/

/-- What reaches a project is affected by it. -/
theorem mem_affectedBy (hnamed : w.Named)
    (h : Relation.ReflTransGen (fun a b => b ∈ w.directDependencies a) other name) :
    other ∈ w.affectedBy name := by
  rw [(w.affectedBy_visits name).mem_iff]
  have hback {a b : String} (hab : b ∈ w.directDependencies a) : a ∈ w.directDependents b := by
    obtain ⟨p, hp, hlisted⟩ := mem_directDependencies_iff.mp hab
    have hentry := Dict.mem_entries_of_get? hp
    apply List.mem_map.mpr
    refine ⟨p, ?_, hnamed _ hentry⟩
    rw [List.mem_filter]
    exact ⟨List.mem_map_of_mem hentry, by simpa using hlisted⟩
  apply Relation.ReflTransGen.swap
  exact Relation.ReflTransGen.mono (fun _ _ hab => hback hab) _ _ h

/-- A project that is not affected by a change reaches the same projects as before, none of which
was changed. -/
theorem unaffected (hw : w.Named) (hw' : w'.Named)
    (hsame : ∀ other, other ≠ name → w'.projects.get? other = w.projects.get? other)
    (hother : other ∉ w'.affectedBy name) :
    w'.reached other = w.reached other ∧ ∀ n ∈ w.reached other, n ≠ name := by
  have hvisits' := w'.reached_visits hw' other
  have hname : ∀ n ∈ preorder w'.directDependencies w'.searchBound [other] [], n ≠ name := by
    rintro _ hn rfl
    exact hother (mem_affectedBy hw' (hvisits'.mem_iff.mp hn))
  have hvisits : Visits w.directDependencies [other] []
      (preorder w'.directDependencies w'.searchBound [other] []) := by
    apply hvisits'.congr
    intro n hn
    unfold directDependencies project?
    rw [hsame n (hname n hn)]
  have heq := hvisits.unique (w.reached_visits hw other)
  unfold reached
  rw [← heq]
  constructor
  · apply List.filter_congr
    intro n hn
    unfold Dict.contains
    rw [hsame n (hname n hn)]
  · intro n hn
    exact hname n (List.mem_filter.mp hn).1

theorem closures_invalidate (w : Workspace) (name other : String) :
    (w.invalidate name).closures.get? other =
      if other ∈ w.affectedBy name then none else w.closures.get? other := by
  show (w.closures.filterKeys _).get? other = _
  rw [Dict.get?_filterKeys]
  by_cases hother : other ∈ w.affectedBy name <;> simp [hother]

theorem classpaths_invalidate (w : Workspace) (name other : String) :
    (w.invalidate name).classpaths.get? other =
      if other ∈ w.affectedBy name then none else w.classpaths.get? other := by
  show (w.classpaths.filterKeys _).get? other = _
  rw [Dict.get?_filterKeys]
  by_cases hother : other ∈ w.affectedBy name <;> simp [hother]

/-- What a coherent workspace still remembers after a change is right for the changed projects. -/
theorem Coherent.put (h : w.Coherent) {p : Project} :
    ({ w with projects := w.projects.put p.name p }.invalidate p.name).Coherent := by
  set changed : Workspace := { w with projects := w.projects.put p.name p } with hchanged
  have hnamed : changed.Named := h.named.put rfl rfl
  have hsame (other : String) (hne : other ≠ p.name) :
      changed.projects.get? other = w.projects.get? other := by
    show (w.projects.put p.name p).get? other = _
    rw [Dict.get?_put, if_neg (Ne.symm hne)]
  have hcontains {other : String} (hother : w.projects.contains other) :
      changed.projects.contains other := by
    rw [Dict.contains_eq] at hother ⊢
    exact Dict.mem_keys_put.mpr (.inr hother)
  have hclosure (other : String) :
      (changed.invalidate p.name).closureOf other = changed.forget.closureOf other := by
    unfold closureOf
    rw [closures_invalidate]
    split
    next known hknown =>
      split_ifs at hknown with hother
      obtain ⟨hreached, -⟩ := unaffected h.named hnamed hsame hother
      obtain ⟨hproject, rfl⟩ := h.of_closures hknown
      show some (w.reached other) = if changed.projects.contains other then
        some (changed.reached other) else none
      rw [if_pos (hcontains hproject), hreached]
    next => rfl
  have hclasspath (other : String) :
      (changed.invalidate p.name).classpathOf other = changed.forget.classpathOf other := by
    rw [classpathOf, classpaths_invalidate]
    split
    next known hknown =>
      split_ifs at hknown with hother
      obtain ⟨hreached, hne⟩ := unaffected h.named hnamed hsame hother
      obtain ⟨hproject, rfl⟩ := h.of_classpaths hknown
      have hjoined : changed.joinedClasspath (w.reached other) =
          w.joinedClasspath (w.reached other) := by
        unfold joinedClasspath
        congr 2
        apply List.filterMap_congr
        intro n hn
        exact hsame n (hne n hn)
      rw [classpathOf_forget, closureOf_forget, if_pos (hcontains hproject), hreached,
        Option.map_some, hjoined]
    next =>
      rw [hclosure]
      rfl
  exact ⟨hnamed, Dict.nodup_keys_put h.nodup _ _, hclosure, hclasspath⟩

/-! ## Answers -/

/-- The closure of a project, as an answer. -/
def closureAnswer (w : Workspace) (name : String) : Except WorkspaceError (List String) :=
  match w.closureOf name with
  | some names => .ok names
  | none => .error (.unknownProject name)

/-- The class path of a project, as an answer. -/
def classpathAnswer (w : Workspace) (name : String) :
    Except WorkspaceError (List ClasspathEntry) :=
  match w.classpathOf name with
  | some entries => .ok entries
  | none => .error (.unknownProject name)

theorem map_run_closure (w : Workspace) (name : String) :
    ((closure name).run w).map Prod.fst = w.closureAnswer name := by
  unfold closure closureAnswer closureOf
  simp only [StateT.run_bind, StateT.run_get, pure_bind]
  rcases w.closures.get? name with _ | known
  · by_cases hproject : w.projects.contains name
    · simp only [hproject, ↓reduceIte]
      rfl
    · simp only [hproject, Bool.false_eq_true, ↓reduceIte]
      rfl
  · rfl

theorem map_run_classpath (w : Workspace) (name : String) :
    ((classpath name).run w).map Prod.fst = w.classpathAnswer name := by
  cases hrun : (classpath name).run w with
  | ok r =>
    obtain ⟨entries, v⟩ := r
    rw [classpathAnswer, (classpath_spec hrun).2]
    rfl
  | error e =>
    -- Only the closure can fail, and then nothing was remembered.
    unfold classpath at hrun
    simp only [StateT.run_bind, StateT.run_get, pure_bind] at hrun
    split at hrun
    next => cases hrun
    next hnone =>
      have hclosure := w.map_run_closure name
      simp only [closureProjects, StateT.run_bind] at hrun
      unfold closureAnswer at hclosure
      cases hnames : (closure name).run w with
      | ok r =>
        rw [hnames] at hrun
        cases hrun
      | error e' =>
        rw [hnames] at hrun hclosure
        cases hrun
        split at hclosure
        next => cases hclosure
        next hunknown =>
          cases hclosure
          have hof : w.classpathOf name = none := by
            unfold classpathOf
            rw [hnone, hunknown]
            rfl
          rw [classpathAnswer, hof]
          rfl

/-- A request whose answer is a function of what can be computed, and that remembers it at most. -/
structure Responds {α : Type} (request : WorkspaceM α)
    (answer : Workspace → Except WorkspaceError α) : Prop where
  map_run : ∀ w, (request.run w).map Prod.fst = answer w
  grows : ∀ w a w', request.run w = .ok (a, w') → w.Grows w'
  stable : ∀ w w', w.Grows w' → answer w' = answer w

namespace Responds

variable {α β : Type} {request : WorkspaceM α} {f : Workspace → Except WorkspaceError α}

theorem pure (a : α) : Responds (pure a) fun _ => .ok a where
  map_run _ := rfl
  grows := by
    rintro w _ _ ⟨⟩
    exact Grows.refl w
  stable _ _ _ := rfl

theorem bind {g : α → WorkspaceM β} {h : α → Workspace → Except WorkspaceError β}
    (hrequest : Responds request f) (hg : ∀ a, Responds (g a) (h a)) :
    Responds (request >>= g) fun w => f w >>= fun a => h a w where
  map_run w := by
    have hfirst := hrequest.map_run w
    rw [StateT.run_bind, ← hfirst]
    cases hrun : request.run w with
    | error e => rfl
    | ok r =>
      obtain ⟨a, v⟩ := r
      have hrest := (hg a).map_run v
      rw [(hg a).stable w v (hrequest.grows w a v hrun)] at hrest
      exact hrest
  grows w b w' hboth := by
    rw [StateT.run_bind] at hboth
    cases hrun : request.run w with
    | error e =>
      rw [hrun] at hboth
      cases hboth
    | ok r =>
      obtain ⟨a, v⟩ := r
      rw [hrun] at hboth
      exact (hrequest.grows w a v hrun).trans ((hg a).grows v b w' hboth)
  stable w w' hw := by
    simp only [hrequest.stable w w' hw, (hg _).stable w w' hw]

theorem map (hrequest : Responds request f) (g : α → β) :
    Responds (g <$> request) fun w => f w >>= fun a => .ok (g a) := by
  rw [map_eq_pure_bind]
  exact hrequest.bind fun a => pure (g a)

/-- Requests for several names are answered one after the other. -/
theorem mapM {each : String → WorkspaceM α} {h : String → Workspace → Except WorkspaceError α}
    (heach : ∀ name, Responds (each name) (h name)) (names : List String) :
    Responds (names.mapM each) fun w => names.mapM fun name => h name w := by
  induction names with
  | nil => exact pure []
  | cons name names ih =>
    simp only [List.mapM_cons]
    exact (heach name).bind fun a => ih.bind fun rest => pure (a :: rest)

end Responds

theorem closure_responds (name : String) : Responds (closure name) (closureAnswer · name) where
  map_run w := w.map_run_closure name
  grows _ _ _ := closure_grows
  stable w w' hw := by
    unfold closureAnswer
    rw [hw.closureOf]

theorem classpath_responds (name : String) :
    Responds (classpath name) (classpathAnswer · name) where
  map_run w := w.map_run_classpath name
  grows _ _ _ := classpath_grows
  stable w w' hw := by
    unfold classpathAnswer
    rw [hw.classpathOf]

theorem classFinder_responds (name : String) : Responds (classFinder name) fun w =>
    w.classpathAnswer name >>= fun entries => .ok ({ entries } : Classpath) :=
  (classpath_responds name).bind fun entries => Responds.pure ({ entries } : Classpath)

theorem unitedClasspath_responds : Responds unitedClasspath fun w =>
    (w.projects.keys.mapM fun name => w.classpathAnswer name) >>= fun classpaths =>
      .ok (ClasspathEntry.dedup [] classpaths.flatten) := by
  -- The projects that are asked for are those of the workspace at the start.
  have hnames (names : List String) := (Responds.mapM classpath_responds names).bind
    fun classpaths => Responds.pure (ClasspathEntry.dedup [] classpaths.flatten)
  refine ⟨fun w => (hnames w.projects.keys).map_run w,
    fun w => (hnames w.projects.keys).grows w, fun w w' hw => ?_⟩
  have hstable := (hnames w.projects.keys).stable w w' hw
  simp only [hw.projects]
  exact hstable

/-- Workspaces with the same projects that can compute the same answer alike. -/
theorem answer_congr (hprojects : w'.projects = w.projects)
    (hclosure : ∀ name, w'.closureOf name = w.closureOf name)
    (hclasspath : ∀ name, w'.classpathOf name = w.classpathOf name) (call : Call) :
    w'.answer call = w.answer call := by
  have hclosures : w'.closureAnswer = w.closureAnswer := by
    funext name
    unfold closureAnswer
    rw [hclosure]
  have hclasspaths : w'.classpathAnswer = w.classpathAnswer := by
    funext name
    unfold classpathAnswer
    rw [hclasspath]
  cases call with
  | addProject p =>
    simp only [answer, perform, addProject, hprojects]
    split <;> rfl
  | setDependencies name dependsOn =>
    simp only [answer, perform, setDependencies, project?, hprojects]
    split <;> rfl
  | closure name =>
    have hresponds := (closure_responds name).map Answer.names
    simp only [answer, perform, hresponds.map_run, hclosures]
  | classpath name =>
    have hresponds := (classpath_responds name).map Answer.entries
    simp only [answer, perform, hresponds.map_run, hclasspaths]
  | classFinder name =>
    have hresponds := (classFinder_responds name).map Answer.finder
    simp only [answer, perform, hresponds.map_run, hclasspaths]
  | unitedClasspath =>
    have hresponds := unitedClasspath_responds.map Answer.entries
    simp only [answer, perform, hresponds.map_run, hclasspaths, hprojects]

/-! ## Rejections -/

theorem Coherent.closureAnswer_eq (h : w.Coherent) (name : String) : w.closureAnswer name =
    if w.projects.contains name then .ok (w.reached name) else .error (.unknownProject name) := by
  unfold closureAnswer
  rw [h.closures, closureOf_forget]
  split_ifs <;> rfl

theorem Coherent.classpathAnswer_eq (h : w.Coherent) (name : String) : w.classpathAnswer name =
    if w.projects.contains name then .ok (w.joinedClasspath (w.reached name))
    else .error (.unknownProject name) := by
  unfold classpathAnswer
  rw [h.classpaths, classpathOf_forget, closureOf_forget]
  split_ifs <;> rfl

/-- All projects have class paths. -/
theorem Coherent.mapM_classpathAnswer (h : w.Coherent) {names : List String}
    (hnames : ∀ name ∈ names, w.projects.contains name) :
    names.mapM w.classpathAnswer =
      .ok (names.map fun name => w.joinedClasspath (w.reached name)) := by
  induction names with
  | nil => rfl
  | cons name names ih =>
    have hfirst := h.classpathAnswer_eq name
    rw [if_pos (hnames name List.mem_cons_self)] at hfirst
    have hrest := ih fun other hother => hnames other (List.mem_cons_of_mem name hother)
    rw [List.mapM_cons, hfirst, hrest]
    rfl

/-- A call is rejected for its name, and for nothing else. -/
theorem Coherent.answer_eq_error_iff (h : w.Coherent) (call : Call) (e : WorkspaceError) :
    w.answer call = .error e ↔ w.rejection? call = some e := by
  cases call with
  | addProject p =>
    simp only [answer, perform, addProject, rejection?]
    split_ifs <;> simp [Except.map]
  | setDependencies name dependsOn =>
    simp only [answer, perform, setDependencies, rejection?, project?, Dict.contains]
    split <;> simp [Except.map, *]
  | closure name =>
    have hresponds := (closure_responds name).map Answer.names
    simp only [answer, perform, hresponds.map_run, h.closureAnswer_eq, rejection?]
    split_ifs <;> simp [bind, Except.bind]
  | classpath name =>
    have hresponds := (classpath_responds name).map Answer.entries
    simp only [answer, perform, hresponds.map_run, h.classpathAnswer_eq, rejection?]
    split_ifs <;> simp [bind, Except.bind]
  | classFinder name =>
    have hresponds := (classFinder_responds name).map Answer.finder
    simp only [answer, perform, hresponds.map_run, h.classpathAnswer_eq, rejection?]
    split_ifs <;> simp [bind, Except.bind]
  | unitedClasspath =>
    have hresponds := unitedClasspath_responds.map Answer.entries
    have hall := h.mapM_classpathAnswer fun name hname =>
      (Dict.contains_eq w.projects name).mpr hname
    simp only [answer, perform, hresponds.map_run, hall, rejection?]
    simp [bind, Except.bind]

/-! ## Runs -/

theorem Coherent.addProject (h : w.Coherent) {p : Project} (hadd : w.addProject p = .ok w') :
    w'.Coherent := by
  unfold Workspace.addProject at hadd
  split_ifs at hadd
  cases hadd
  exact h.put

theorem Coherent.setDependencies (h : w.Coherent) {dependsOn : List String}
    (hset : w.setDependencies name dependsOn = .ok w') : w'.Coherent := by
  unfold Workspace.setDependencies at hset
  cases hproject : w.project? name with
  | none =>
    rw [hproject] at hset
    cases hset
  | some p =>
    rw [hproject] at hset
    cases hset
    have hname : p.name = name := h.named _ (Dict.mem_entries_of_get? hproject)
    subst hname
    exact h.put (p := { p with dependsOn })

theorem Coherent.perform (h : w.Coherent) {call : Call} {answer : Answer}
    (hcall : w.perform call = .ok (answer, w')) : w'.Coherent := by
  cases call with
  | addProject p =>
    cases hadd : w.addProject p with
    | error e =>
      simp only [Workspace.perform, hadd] at hcall
      cases hcall
    | ok v =>
      simp only [Workspace.perform, hadd] at hcall
      cases hcall
      exact h.addProject hadd
  | setDependencies name dependsOn =>
    cases hset : w.setDependencies name dependsOn with
    | error e =>
      simp only [Workspace.perform, hset] at hcall
      cases hcall
    | ok v =>
      simp only [Workspace.perform, hset] at hcall
      cases hcall
      exact h.setDependencies hset
  | closure name => exact h.grows (((closure_responds name).map Answer.names).grows _ _ _ hcall)
  | classpath name =>
    exact h.grows (((classpath_responds name).map Answer.entries).grows _ _ _ hcall)
  | classFinder name =>
    exact h.grows (((classFinder_responds name).map Answer.finder).grows _ _ _ hcall)
  | unitedClasspath =>
    exact h.grows ((unitedClasspath_responds.map Answer.entries).grows _ _ _ hcall)

/-- Calls keep a workspace coherent. -/
theorem Coherent.run (h : w.Coherent) (calls : List Call) : (w.run calls).Coherent := by
  induction calls generalizing w with
  | nil => exact h
  | cons call calls ih =>
    apply ih
    unfold after
    split
    next hcall => exact h.perform hcall
    next => exact h

/-- Projects with names of their own are added one behind the other. -/
theorem addProjects_eq_ok (projects : List Project) (w : Workspace)
    (hclosures : w.closures = .empty) (hclasspaths : w.classpaths = .empty)
    (hnodup : (w.projects.keys ++ projects.map Project.name).Nodup) :
    w.addProjects projects = .ok { w with
      projects := ⟨w.projects.entries ++ projects.map fun p => (p.name, p)⟩ } := by
  induction projects generalizing w with
  | nil =>
    show Except.ok w = _
    simp
  | cons p projects ih =>
    have hnew : p.name ∉ w.projects.keys := by
      intro hmem
      rw [List.map_cons] at hnodup
      exact List.disjoint_of_nodup_append hnodup hmem (List.mem_cons_self ..)
    have hadd : w.addProject p = .ok { w with projects := w.projects.put p.name p } := by
      have hcontains : ¬ w.projects.contains p.name := by rwa [Dict.contains_eq]
      rw [addProject, if_neg hcontains, invalidate, hclosures, hclasspaths]
      rfl
    have hput : w.projects.put p.name p = ⟨w.projects.entries ++ [(p.name, p)]⟩ := by
      rw [← Dict.entries_put_of_notMem hnew]
    have hkeys : (w.projects.put p.name p).keys = w.projects.keys ++ [p.name] := by
      rw [Dict.keys_put, if_neg hnew]
    have hrest := ih { w with projects := w.projects.put p.name p } hclosures hclasspaths
      (by simpa [hkeys] using hnodup)
    rw [addProjects, List.foldlM_cons, hadd]
    show addProjects _ projects = _
    rw [hrest, hput]
    simp

/-- A workspace with names of their own for its projects can be built from them anew. -/
theorem rebuild_eq_ok (hnamed : w.Named) (hnodup : w.projects.keys.Nodup)
    (sourceExtension artifactExtension : String) :
    (new sourceExtension artifactExtension).addProjects w.projects.values =
      .ok { sourceExtension, artifactExtension, projects := w.projects } := by
  have hkeys : w.projects.values.map Project.name = w.projects.keys := by
    unfold Dict.values Dict.keys
    rw [List.map_map]
    apply List.map_congr_left
    intro e he
    exact hnamed e he
  have hentries : w.projects.values.map (fun p => (p.name, p)) = w.projects.entries := by
    unfold Dict.values
    rw [List.map_map]
    conv_rhs => rw [← List.map_id w.projects.entries]
    apply List.map_congr_left
    intro e he
    exact Prod.ext (hnamed e he) rfl
  rw [addProjects_eq_ok _ _ rfl rfl (by simpa [new, Dict.keys, Dict.empty, hkeys] using hnodup)]
  simp [new, hentries, Dict.empty]

/-- What a workspace answers after any calls is what it answers when it is built anew from its
projects. Calls are rejected for a taken name or a missing project only, and then change nothing. -/
theorem answers_as_rebuilt (sourceExtension artifactExtension : String) (calls : List Call) :
    let w := (new sourceExtension artifactExtension).run calls
    ∃ rebuilt, (new sourceExtension artifactExtension).addProjects w.projects.values =
        .ok rebuilt ∧
      (∀ call, w.answer call = rebuilt.answer call) ∧
      (∀ call e, w.answer call = .error e ↔ w.rejection? call = some e) ∧
      ∀ call e, w.answer call = .error e → w.after call = w := by
  intro w
  have hcoherent : w.Coherent := (Coherent.new sourceExtension artifactExtension).run calls
  refine ⟨_, rebuild_eq_ok hcoherent.named hcoherent.nodup _ _, ?_, hcoherent.answer_eq_error_iff,
    ?_⟩
  · intro call
    apply answer_congr
    · rfl
    · intro name
      rw [hcoherent.closures]
      exact (forget_closureOf_congr rfl).symm
    · intro name
      rw [hcoherent.classpaths]
      exact (forget_classpathOf_congr rfl).symm
  · intro call e hrejected
    unfold after
    split
    next hcall =>
      simp only [answer, hcall] at hrejected
      cases hrejected
    next => rfl

end Workspace

end Rebuild
