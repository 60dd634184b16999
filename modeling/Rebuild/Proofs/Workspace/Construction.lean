import Mathlib
import Rebuild.Proofs.Workspace.Growth

/-! Workspaces as they come about, project by project. Main statement: whatever was done to a
workspace, each of its projects has a class path. -/
namespace Rebuild.Workspace

/-- A workspace that came about by its operations. -/
inductive Made : Workspace → Prop where
  | empty (sourceExtension artifactExtension : String) :
      Made { sourceExtension, artifactExtension }
  | addProject {w w' : Workspace} (hw : Made w) {p : Project} (h : w.addProject p = .ok w') :
      Made w'
  | setDependencies {w w' : Workspace} (hw : Made w) {name : String} {dependsOn : List String}
      (h : w.setDependencies name dependsOn = .ok w') : Made w'
  | closure {w w' : Workspace} (hw : Made w) {name : String} {names : List String}
      (h : (closure name).run w = .ok (names, w')) : Made w'
  | classpath {w w' : Workspace} (hw : Made w) {name : String} {entries : List ClasspathEntry}
      (h : (classpath name).run w = .ok (entries, w')) : Made w'
  | fileId {w : Workspace} (hw : Made w) (p : Path) : Made (w.fileId p).2

/-- Each project is found by its own name. -/
def Named (w : Workspace) : Prop := ∀ e ∈ w.projects.entries, e.2.name = e.1

variable {w w' : Workspace}

namespace Named

theorem grows (h : w.Named) (hw : w.Grows w') : w'.Named := by
  unfold Named
  rw [hw.projects]
  exact h

theorem contains (h : w.Named) {p : Project} (hp : p ∈ w.projects.values) :
    w.projects.contains p.name := by
  obtain ⟨e, he, rfl⟩ := List.mem_map.mp hp
  rw [Dict.contains_eq, h e he]
  exact List.mem_map_of_mem he

theorem put (h : w.Named) {p : Project} {name : String} (hp : p.name = name)
    (hw : w'.projects = w.projects.put name p) : w'.Named := by
  intro e he
  rw [hw] at he
  rcases Dict.of_mem_entries_put he with rfl | hold
  · exact hp
  · exact h e hold

end Named

theorem Made.named (h : w.Made) : w.Named := by
  induction h with
  | empty => exact fun e he => by cases he
  | addProject _ h ih =>
    unfold Workspace.addProject at h
    split_ifs at h
    cases h
    exact ih.put rfl rfl
  | @setDependencies w _ _ name dependsOn h ih =>
    unfold Workspace.setDependencies at h
    split at h
    next => cases h
    next p hp =>
      cases h
      have hname : p.name = name := ih _ (Dict.mem_entries_of_get? hp)
      exact ih.put (p := { p with dependsOn }) hname rfl
  | closure _ h ih => exact ih.grows (closure_grows h)
  | classpath _ h ih => exact ih.grows (classpath_grows h)
  | fileId _ p ih => exact ih.grows (fileId_grows _ p)

/-! ## Class paths -/

variable {name : String}

theorem closure_eq_ok (h : w.projects.contains name) :
    ∃ names w', (closure name).run w = .ok (names, w') := by
  unfold closure
  simp only [StateT.run_bind, StateT.run_get, pure_bind]
  split
  next known _ => exact ⟨known, w, rfl⟩
  next =>
    rw [if_pos h]
    exact ⟨_, _, rfl⟩

theorem classpath_eq_ok (h : w.projects.contains name) :
    ∃ entries w', (classpath name).run w = .ok (entries, w') := by
  obtain ⟨names, v, hclosure⟩ := closure_eq_ok h
  unfold classpath
  simp only [StateT.run_bind, StateT.run_get, pure_bind]
  split
  next known _ => exact ⟨known, w, rfl⟩
  next =>
    simp only [closureProjects, StateT.run_bind, hclosure]
    exact ⟨_, _, rfl⟩

/-- No project of a workspace is unknown to it. -/
theorem Made.classpath_eq_ok (h : w.Made) {p : Project} (hp : p ∈ w.projects.values) :
    ∃ entries w', (Workspace.classpath p.name).run w = .ok (entries, w') :=
  Workspace.classpath_eq_ok (h.named.contains hp)

end Rebuild.Workspace
