import Mathlib
import Rebuild.Proofs.Workspace.Coherence

/-! The order in which a project reaches others. Main statement: the closure of a project is the
depth-first preorder of the projects that can be reached from it, and what is looked for in it is
found in the first of them that has it. -/
namespace Rebuild.Workspace

variable {next : String → List String} {names more seen seen' order : List String}

/-- Going through some names in depth-first preorder: a name that was not met before is followed by
all that is met from it on, and only then by the names behind it. -/
inductive DepthFirst (next : String → List String) : (names seen order : List String) → Prop where
  | done (seen : List String) : DepthFirst next [] seen []
  | old {name : String} {names seen order : List String} (hseen : name ∈ seen)
      (rest : DepthFirst next names seen order) : DepthFirst next (name :: names) seen order
  | new {name : String} {names seen below order : List String} (hnew : name ∉ seen)
      (inside : DepthFirst next (next name) (name :: seen) below)
      (rest : DepthFirst next names (below ++ name :: seen) order) :
      DepthFirst next (name :: names) seen (name :: below ++ order)

namespace DepthFirst

/-- The order in which names were met before does not matter. -/
theorem congr_seen (h : DepthFirst next names seen order)
    (hseen : ∀ name, name ∈ seen ↔ name ∈ seen') : DepthFirst next names seen' order := by
  induction h generalizing seen' with
  | done => exact .done seen'
  | old hold _ ih => exact .old ((hseen _).mp hold) (ih hseen)
  | new hnew _ _ ihInside ihRest =>
    refine .new (fun hold => hnew ((hseen _).mpr hold)) (ihInside fun name => ?_)
      (ihRest fun name => ?_)
    · rw [List.mem_cons, List.mem_cons, hseen]
    · rw [List.mem_append, List.mem_append, List.mem_cons, List.mem_cons, hseen]

/-- The names in front are gone through before those behind. -/
theorem split (h : DepthFirst next (names ++ more) seen order) :
    ∃ first last, order = first ++ last ∧ DepthFirst next names seen first ∧
      DepthFirst next more (first ++ seen) last := by
  induction names generalizing seen order with
  | nil => exact ⟨[], order, rfl, .done seen, h⟩
  | cons name names ih =>
    cases h with
    | old hold rest =>
      obtain ⟨first, last, rfl, hfirst, hlast⟩ := ih rest
      exact ⟨first, last, rfl, .old hold hfirst, hlast⟩
    | @new _ _ _ below _ hnew inside rest =>
      obtain ⟨first, last, rfl, hfirst, hlast⟩ := ih rest
      refine ⟨name :: below ++ first, last, by simp, .new hnew inside hfirst, ?_⟩
      apply hlast.congr_seen
      intro other
      simp only [List.mem_append, List.mem_cons]
      tauto

/-- Names are met once, and only those that were not met before. -/
theorem nodup (h : DepthFirst next names seen order) :
    order.Nodup ∧ ∀ name ∈ order, name ∉ seen := by
  induction h with
  | done => exact ⟨List.nodup_nil, by simp⟩
  | old _ _ ih => exact ih
  | @new name _ seen below order hnew _ _ ihInside ihRest =>
    obtain ⟨hbelow, hbelowNew⟩ := ihInside
    obtain ⟨horder, horderNew⟩ := ihRest
    constructor
    · rw [List.cons_append, List.nodup_cons, List.nodup_append']
      refine ⟨?_, hbelow, horder, fun other hother hlater => ?_⟩
      · rw [List.mem_append, not_or]
        exact ⟨fun hmem => hbelowNew name hmem List.mem_cons_self,
          fun hmem => horderNew name hmem (by simp)⟩
      · exact horderNew other hlater (List.mem_append_left _ hother)
    · intro other hother hold
      rcases List.mem_append.mp hother with hother | hother
      · rcases List.mem_cons.mp hother with rfl | hother
        · exact hnew hold
        · exact hbelowNew other hother (List.mem_cons_of_mem _ hold)
      · exact horderNew other hother (by simp [hold])

/-- Names and what was met before leave no choice. -/
theorem unique {order' : List String} (h : DepthFirst next names seen order)
    (h' : DepthFirst next names seen order') : order = order' := by
  induction h generalizing order' with
  | done =>
    cases h'
    rfl
  | old hold _ ih =>
    cases h' with
    | old _ rest => exact ih rest
    | new hnew _ _ => exact absurd hold hnew
  | new hnew _ _ ihInside ihRest =>
    cases h' with
    | old hold _ => exact absurd hold hnew
    | new _ inside rest =>
      obtain rfl := ihInside inside
      rw [ihRest rest]

/-- Names that lead nowhere can be left out. -/
theorem restrict (keep : String → Bool) (h : DepthFirst next names seen order)
    (hkeep : ∀ name, keep name = false → next name = []) :
    DepthFirst (fun name => (next name).filter keep) (names.filter keep) (seen.filter keep)
      (order.filter keep) := by
  induction h with
  | done => exact .done _
  | @old name _ _ _ hold _ ih =>
    cases hname : keep name with
    | false => rwa [List.filter_cons_of_neg (by simp [hname])]
    | true =>
      rw [List.filter_cons_of_pos hname]
      exact .old (List.mem_filter.mpr ⟨hold, hname⟩) ih
  | @new name names seen below order hnew inside rest ihInside ihRest =>
    cases hname : keep name with
    | false =>
      have hnone : below = [] := by
        rw [hkeep name hname] at inside
        cases inside
        rfl
      subst hnone
      simp only [List.nil_append, List.filter_append,
        List.filter_cons_of_neg (show ¬ keep name = true by simp [hname])] at ihRest ⊢
      exact ihRest
    | true =>
      rw [List.filter_append, List.filter_cons_of_pos hname] at ihRest
      rw [List.filter_cons_of_pos hname] at ihInside
      rw [List.filter_cons_of_pos hname, List.filter_append, List.filter_cons_of_pos hname]
      exact .new (fun hold => hnew (List.mem_filter.mp hold).1) ihInside ihRest

end DepthFirst

/-- A search with a stack goes through the names depth first. -/
theorem Visits.depthFirst (h : Visits next names seen order) :
    DepthFirst next names seen order := by
  induction h with
  | done seen => exact .done seen
  | skip hseen _ ih => exact .old hseen ih
  | meet hnew _ ih =>
    obtain ⟨below, order, rfl, hinside, hrest⟩ := ih.split
    exact .new hnew hinside hrest

/-! ## Closures -/

variable {w w' : Workspace} {name : String}

theorem Made.coherent (h : w.Made) : w.Coherent := by
  induction h with
  | empty sourceExtension artifactExtension => exact .new sourceExtension artifactExtension
  | addProject _ h ih => exact ih.addProject h
  | setDependencies _ h ih => exact ih.setDependencies h
  | closure _ h ih => exact ih.grows (closure_grows h)
  | classpath _ h ih => exact ih.grows (classpath_grows h)
  | fileId _ p ih => exact ih.grows (fileId_grows _ p)

theorem Made.addProjects {projects : List Project} (h : w.Made)
    (hadd : w.addProjects projects = .ok w') : w'.Made := by
  induction projects generalizing w with
  | nil =>
    cases hadd
    exact h
  | cons p projects ih =>
    rw [Workspace.addProjects, List.foldlM_cons] at hadd
    cases hp : w.addProject p with
    | error e =>
      rw [hp] at hadd
      cases hadd
    | ok v =>
      rw [hp] at hadd
      exact ih (h.addProject hp) hadd

/-- The projects that a project lists, without the names that no project has. -/
def existingDependencies (w : Workspace) (name : String) : List String :=
  (w.directDependencies name).filter w.projects.contains

theorem reached_depthFirst (hnamed : w.Named) (hname : w.projects.contains name) :
    DepthFirst w.existingDependencies [name] [] (w.reached name) := by
  have hvisits := (w.reached_visits hnamed name).depthFirst
  have hrestricted := hvisits.restrict w.projects.contains fun other hother => by
    have hnone : w.projects.get? other = none := by simpa [Dict.contains] using hother
    rw [directDependencies, project?, hnone]
    rfl
  rwa [List.filter_cons_of_pos hname] at hrestricted

/-- A project is in the closure if dependency lists lead to it. -/
theorem mem_reached_iff (hnamed : w.Named) {other : String} : other ∈ w.reached name ↔
    w.projects.contains other ∧
      Relation.ReflTransGen (fun a b => b ∈ w.directDependencies a) name other := by
  rw [reached, List.mem_filter, (w.reached_visits hnamed name).mem_iff, and_comm]

/-- Whether or not it was computed before, the closure of a project is what the project reaches
now. -/
theorem Made.run_closure (h : w.Made) (hname : w.projects.contains name) :
    ∃ v, (Workspace.closure name).run w = .ok (w.reached name, v) ∧
      v.projects = w.projects ∧ v.sourceExtension = w.sourceExtension := by
  have hclosure := Workspace.closure_eq w name
  rw [h.coherent.closures, closureOf_forget, if_pos hname] at hclosure
  exact hclosure

theorem Made.run_closureProjects (h : w.Made) (hname : w.projects.contains name) :
    ∃ v, (closureProjects name).run w = .ok ((w.reached name).filterMap w.project?, v) ∧
      v.sourceExtension = w.sourceExtension := by
  obtain ⟨v, hclosure, hprojects, hextension⟩ := h.run_closure hname
  have hproject : v.project? = w.project? := by
    funext other
    rw [project?, project?, hprojects]
  refine ⟨v, ?_, hextension⟩
  unfold closureProjects
  rw [StateT.run_bind, hclosure, ← hproject]
  rfl

/-! ## Looking through a closure -/

/-- The candidate of the first project that has one, if any of the projects has one. -/
def IsFirstFound (w : Workspace) (names : List String) (candidate : Project → Path)
    (has : Path → Bool) : Option Path → Prop
  | some path => ∃ before name p after, names = before ++ name :: after ∧
      w.project? name = some p ∧ path = candidate p ∧ has path ∧
      ∀ other ∈ before, ∀ q, w.project? other = some q → ¬ has (candidate q)
  | none => ∀ other ∈ names, ∀ q, w.project? other = some q → ¬ has (candidate q)

/-- A name whose project does not have the candidate is passed over. -/
theorem IsFirstFound.cons {candidate : Project → Path} {has : Path → Bool} {found : Option Path}
    (h : w.IsFirstFound names candidate has found)
    (hskip : ∀ q, w.project? name = some q → ¬ has (candidate q)) :
    w.IsFirstFound (name :: names) candidate has found := by
  cases found with
  | none => exact List.forall_mem_cons.mpr ⟨hskip, h⟩
  | some path =>
    obtain ⟨before, other, p, after, rfl, hp, hpath, hhas, hbefore⟩ := h
    exact ⟨name :: before, other, p, after, rfl, hp, hpath, hhas,
      List.forall_mem_cons.mpr ⟨hskip, hbefore⟩⟩

theorem isFirstFound_firstIn (names : List String) (root : Project → Path) (relative : Path)
    (has : Path → Bool) :
    w.IsFirstFound names (fun p => (root p).join relative) has
      (firstIn root relative has (names.filterMap w.project?)) := by
  unfold firstIn
  induction names with
  | nil => simp [IsFirstFound]
  | cons name names ih =>
    cases hp : w.project? name with
    | none =>
      rw [List.filterMap_cons_none hp]
      exact ih.cons fun q hq => absurd (hp.symm.trans hq) (by simp)
    | some p =>
      rw [List.filterMap_cons_some hp, List.map_cons]
      by_cases hhas : has ((root p).join relative)
      · rw [List.find?_cons_of_pos hhas]
        exact ⟨[], name, p, names, rfl, hp, rfl, hhas, by simp⟩
      · rw [List.find?_cons_of_neg hhas]
        exact ih.cons fun q hq => by
          obtain rfl : p = q := Option.some.inj (hp.symm.trans hq)
          exact hhas

/-- The closure of a project is computed, whatever the lists of dependencies say: it is the
depth-first preorder of the projects from this one, in the order in which they list each other. It
has each project once, and all those and only those that dependency lists lead to. A source, an
artifact and the source of a type are found in the first project of that order that has them, and
are missed only if none of the projects has them. -/
theorem closure_depth_first (hw : w.Made) (hname : w.projects.contains name) :
    ∃ names w', (closure name).run w = .ok (names, w') ∧
      (∀ order, DepthFirst w.existingDependencies [name] [] order ↔ order = names) ∧
      names.Nodup ∧
      (∀ other, other ∈ names ↔ w.projects.contains other ∧
        Relation.ReflTransGen (fun a b => b ∈ w.directDependencies a) name other) ∧
      ∀ t : FileTree,
        (∀ relative, ∃ found v, (resolveSource t name relative).run w = .ok (found, v) ∧
          w.IsFirstFound names (fun p => p.sourceRoot.join relative) t.contains found) ∧
        (∀ relative, ∃ found v, (resolveArtifact t name relative).run w = .ok (found, v) ∧
          w.IsFirstFound names (fun p => p.buildRoot.join relative) t.contains found) ∧
        ∀ binary, ∃ found v, (sourceForTypeIn t name binary).run w = .ok (found, v) ∧
          w.IsFirstFound names (fun p => p.sourceRoot.join (w.sourceOfType binary)) t.isFile
            found := by
  have horder := reached_depthFirst hw.named hname
  obtain ⟨w', hclosure, -⟩ := hw.run_closure hname
  obtain ⟨v, hprojects, hextension⟩ := hw.run_closureProjects hname
  have hfound := @isFirstFound_firstIn w (w.reached name)
  refine ⟨w.reached name, w', hclosure,
    fun order => ⟨fun h => h.unique horder, fun h => h ▸ horder⟩, horder.nodup.1,
    fun other => mem_reached_iff hw.named, fun t => ⟨fun relative => ?_, fun relative => ?_,
      fun binary => ?_⟩⟩
  · refine ⟨_, v, ?_, hfound Project.sourceRoot relative t.contains⟩
    rw [resolveSource, StateT.run_bind, hprojects]
    rfl
  · refine ⟨_, v, ?_, hfound Project.buildRoot relative t.contains⟩
    rw [resolveArtifact, StateT.run_bind, hprojects]
    rfl
  · refine ⟨_, v, ?_, hfound Project.sourceRoot (w.sourceOfType binary) t.isFile⟩
    rw [sourceForTypeIn, StateT.run_bind, hprojects, sourceOfType, ← hextension]
    rfl

/-- Projects that list each other in a circle, themselves, a name twice, and a name that no project
has. -/
def tangled : Workspace where
  projects := ⟨[
    ("app", ⟨"app", ⟨"app/src"⟩, ⟨"app/out"⟩, [], ["core", "ghost", "util", "core"]⟩),
    ("util", ⟨"util", ⟨"util/src"⟩, ⟨"util/out"⟩, [], ["util"]⟩),
    ("core", ⟨"core", ⟨"core/src"⟩, ⟨"core/out"⟩, [], ["base", "core"]⟩),
    ("base", ⟨"base", ⟨"base/src"⟩, ⟨"base/out"⟩, [], ["app"]⟩),
    ("tool", ⟨"tool", ⟨"tool/src"⟩, ⟨"tool/out"⟩, [], ["app"]⟩)]⟩

theorem tangled_made : tangled.Made := by
  apply (Made.empty "java" "class").addProjects
  exact rebuild_eq_ok (w := tangled) (by unfold Named; decide) (by decide) "java" "class"

/-- What is listed first is gone through before what is listed next, and a project that is not
listed behind the start is left out. -/
theorem closure_depth_first_tangled :
    tangled.Made ∧ tangled.projects.contains "app" ∧
      ∃ w', (closure "app").run tangled = .ok (["app", "core", "base", "util"], w') ∧
        DepthFirst tangled.existingDependencies ["app"] [] ["app", "core", "base", "util"] := by
  have hname : tangled.projects.contains "app" := by decide
  obtain ⟨names, w', hclosure, horder, -⟩ := closure_depth_first tangled_made hname
  have hnames : names = tangled.reached "app" :=
    (congrArg Prod.fst (Except.ok.inj hclosure)).symm
  have hreached : tangled.reached "app" = ["app", "core", "base", "util"] := by decide
  rw [hnames, hreached] at hclosure horder
  exact ⟨tangled_made, hname, w', hclosure, (horder _).mpr rfl⟩

end Rebuild.Workspace
