import Mathlib
import Rebuild.Workspace.Sources

/-! What a workspace keeps while files are numbered and class paths are computed: its projects, and
the numbers given so far. A file that lies in a project goes on lying there. -/
namespace Rebuild.Workspace

/-! ## Numbers -/

namespace FileRegistry

variable {r r' : FileRegistry} {p : Path} {file : FileId}

theorem id?_of_prefix (hp : r.paths <+: r'.paths) (h : r.id? p = some file) :
    r'.id? p = some file := by
  obtain ⟨more, hmore⟩ := hp
  unfold id? at h ⊢
  rw [← hmore, List.findIdx?_append, h]
  rfl

theorem path?_of_prefix (hp : r.paths <+: r'.paths) {path : Path} (h : r.path? file = some path) :
    r'.path? file = some path := by
  obtain ⟨more, hmore⟩ := hp
  have hlt : file < r.paths.length := (List.getElem?_eq_some_iff.mp h).1
  unfold path?
  rw [← hmore, List.getElem?_append_left hlt]
  exact h

theorem path?_of_id? (h : r.id? p = some file) : ∃ path, r.path? file = some path := by
  obtain ⟨hlt, -⟩ := List.findIdx?_eq_some_iff_getElem.mp h
  exact ⟨r.paths[file], List.getElem?_eq_getElem hlt⟩

theorem paths_register (r : FileRegistry) (p : Path) : r.paths <+: (r.register p).2.paths := by
  unfold register
  split
  · exact List.prefix_refl _
  · exact List.prefix_append _ _

theorem id?_register (r : FileRegistry) (p : Path) :
    (r.register p).2.id? p = some (r.register p).1 := by
  unfold register
  split
  next file h => exact h
  next h =>
    unfold id? at h ⊢
    rw [List.findIdx?_append, h]
    simp

end FileRegistry

/-! ## Growth -/

/-- The closure of a project, whether or not it was computed before. -/
def closureOf (w : Workspace) (name : String) : Option (List String) :=
  match w.closures.get? name with
  | some known => some known
  | none => if w.projects.contains name then some (w.reached name) else none

/-- The class path that some projects make together. -/
def joinedClasspath (w : Workspace) (names : List String) : List ClasspathEntry :=
  ClasspathEntry.dedup [] ((names.filterMap w.project?).flatMap Project.ownClasspath)

/-- The class path of a project, whether or not it was computed before. -/
def classpathOf (w : Workspace) (name : String) : Option (List ClasspathEntry) :=
  match w.classpaths.get? name with
  | some known => some known
  | none => (w.closureOf name).map w.joinedClasspath

/-- A later state of a workspace whose projects were not changed. -/
structure Grows (w w' : Workspace) : Prop where
  projects : w'.projects = w.projects
  paths : w.files.paths <+: w'.files.paths
  sourceExtension : w'.sourceExtension = w.sourceExtension
  artifactExtension : w'.artifactExtension = w.artifactExtension
  closureOf : ∀ name, w'.closureOf name = w.closureOf name
  classpathOf : ∀ name, w'.classpathOf name = w.classpathOf name

theorem Grows.refl (w : Workspace) : w.Grows w :=
  ⟨rfl, List.prefix_refl _, rfl, rfl, fun _ => rfl, fun _ => rfl⟩

theorem Grows.trans {u v w : Workspace} (h : u.Grows v) (h' : v.Grows w) : u.Grows w :=
  ⟨h'.projects.trans h.projects, h.paths.trans h'.paths,
    h'.sourceExtension.trans h.sourceExtension, h'.artifactExtension.trans h.artifactExtension,
    fun name => (h'.closureOf name).trans (h.closureOf name),
    fun name => (h'.classpathOf name).trans (h.classpathOf name)⟩

/-- Does the file with a number lie in a project? -/
def InProject (w : Workspace) (file : FileId) : Prop :=
  ∃ path, w.files.path? file = some path ∧ ∃ p ∈ w.projects.values, p.containsSource path

variable {w w' : Workspace} {file : FileId}

theorem projectForSource?_eq_none_iff {source : Path} :
    w.projectForSource? source = none ↔ ¬ ∃ p ∈ w.projects.values, p.containsSource source := by
  simp [projectForSource?]

theorem of_projectForSource? {source : Path} {p : Project}
    (h : w.projectForSource? source = some p) :
    p ∈ w.projects.values ∧ p.containsSource source := by
  unfold projectForSource? at h
  have hcontains := List.find?_some h
  exact ⟨List.mem_of_find?_eq_some h, hcontains⟩

theorem InProject.grows (h : w.InProject file) (hw : w.Grows w') : w'.InProject file := by
  obtain ⟨path, hpath, hproject⟩ := h
  exact ⟨path, FileRegistry.path?_of_prefix hw.paths hpath, hw.projects ▸ hproject⟩

/-- A file that has a number does not come to lie in a project. -/
theorem InProject.of_grows (h : w'.InProject file) (hw : w.Grows w')
    (hnumber : ∃ path, w.files.path? file = some path) : w.InProject file := by
  obtain ⟨path, hpath⟩ := hnumber
  obtain ⟨path', hpath', hproject⟩ := h
  have heq : path' = path :=
    Option.some.inj (hpath'.symm.trans (FileRegistry.path?_of_prefix hw.paths hpath))
  exact ⟨path, hpath, hw.projects ▸ heq ▸ hproject⟩

theorem fileId_grows (w : Workspace) (p : Path) : w.Grows (w.fileId p).2 :=
  ⟨rfl, w.files.paths_register p, rfl, rfl, fun _ => rfl, fun _ => rfl⟩

theorem id?_fileId (w : Workspace) (p : Path) :
    (w.fileId p).2.files.id? p = some (w.fileId p).1 :=
  w.files.id?_register p

/-! ## Where files lie -/

theorem Grows.projectForSource?_eq (h : w.Grows w') (source : Path) :
    w'.projectForSource? source = w.projectForSource? source := by
  unfold projectForSource?
  rw [h.projects]

theorem Grows.typeOfSource?_eq (h : w.Grows w') (source : Path) :
    w'.typeOfSource? source = w.typeOfSource? source := by
  unfold typeOfSource?
  rw [h.projectForSource?_eq, h.sourceExtension]

theorem Grows.artifactsForSource_eq (h : w.Grows w') (t : FileTree) (source : Path) :
    w'.artifactsForSource t source = w.artifactsForSource t source := by
  unfold artifactsForSource artifactsAt isArtifactOf
  rw [h.projectForSource?_eq, h.typeOfSource?_eq, h.artifactExtension]

/-! ## Class paths and sources -/

/-- Closures are computed as needed and kept. -/
theorem closure_eq (w : Workspace) (name : String) :
    match w.closureOf name with
    | some names => ∃ v, (closure name).run w = .ok (names, v) ∧ v.projects = w.projects ∧
        v.sourceExtension = w.sourceExtension
    | none => ∃ e, (closure name).run w = .error e := by
  unfold closure closureOf
  simp only [StateT.run_bind, StateT.run_get, pure_bind]
  rcases w.closures.get? name with _ | known
  · by_cases hcontains : w.projects.contains name
    · simp only [hcontains, ↓reduceIte]
      exact ⟨_, rfl, rfl, rfl⟩
    · simp only [hcontains, Bool.false_eq_true, ↓reduceIte]
      exact ⟨_, rfl⟩
  · exact ⟨w, rfl, rfl, rfl⟩

theorem closure_grows {name : String} {names : List String}
    (h : (closure name).run w = .ok (names, w')) : w.Grows w' := by
  unfold closure at h
  simp only [StateT.run_bind, StateT.run_get, pure_bind] at h
  split at h
  next known hknown =>
    cases h
    exact Grows.refl w
  next hnone =>
    split at h
    next hcontains =>
      cases h
      have hclosure (other : String) :
          ({ w with closures := w.closures.put name (w.reached name) } : Workspace).closureOf other =
            w.closureOf other := by
        have hreached : ({ w with closures := w.closures.put name (w.reached name) } :
            Workspace).reached other = w.reached other := rfl
        unfold closureOf
        rw [Dict.get?_put, hreached]
        by_cases hother : name = other
        · subst hother
          simp [hnone, hcontains]
        · simp [hother]
      refine ⟨rfl, List.prefix_refl _, rfl, rfl, hclosure, fun other => ?_⟩
      unfold classpathOf
      rw [hclosure]
      rfl
    next hcontains => cases h

theorem closureProjects_grows {name : String} {projects : List Project}
    (h : (closureProjects name).run w = .ok (projects, w')) : w.Grows w' := by
  unfold closureProjects at h
  rw [StateT.run_bind] at h
  rcases hnames : (closure name).run w with e | ⟨names, v⟩
  · rw [hnames] at h
    cases h
  · rw [hnames] at h
    cases h
    exact closure_grows hnames

/-- The projects of a closure are those of its names. -/
theorem of_closureProjects {name : String} {projects : List Project}
    (h : (closureProjects name).run w = .ok (projects, w')) :
    ∃ names, w.closureOf name = some names ∧ projects = names.filterMap w.project? := by
  have hclosure := w.closure_eq name
  unfold closureProjects at h
  rw [StateT.run_bind] at h
  rcases hnames : w.closureOf name with _ | names
  · rw [hnames] at hclosure
    obtain ⟨e, he⟩ := hclosure
    rw [he] at h
    cases h
  · rw [hnames] at hclosure
    obtain ⟨v, hv, hprojects, -⟩ := hclosure
    rw [hv] at h
    cases h
    refine ⟨names, rfl, ?_⟩
    have hproject : v.project? = w.project? := by
      funext other
      rw [project?, project?, hprojects]
    rw [← hproject]

/-- Class paths are computed as needed and kept. -/
theorem classpath_spec {name : String} {entries : List ClasspathEntry}
    (h : (classpath name).run w = .ok (entries, w')) :
    w.Grows w' ∧ w.classpathOf name = some entries := by
  unfold classpath at h
  simp only [StateT.run_bind, StateT.run_get, pure_bind] at h
  split at h
  next known hknown =>
    cases h
    exact ⟨Grows.refl w, by rw [classpathOf, hknown]⟩
  next hnone =>
    rw [StateT.run_bind] at h
    rcases hprojects : (closureProjects name).run w with e | ⟨projects, v⟩
    · rw [hprojects] at h
      cases h
    · rw [hprojects] at h
      cases h
      have hv := closureProjects_grows hprojects
      obtain ⟨names, hnames, rfl⟩ := of_closureProjects hprojects
      have hentries : w.classpathOf name = some (w.joinedClasspath names) := by
        rw [classpathOf, hnone, hnames]
        rfl
      refine ⟨⟨hv.projects, hv.paths, hv.sourceExtension, hv.artifactExtension, hv.closureOf,
        fun other => ?_⟩, hentries⟩
      have hother := hv.classpathOf other
      unfold classpathOf at hother ⊢
      simp only [Dict.get?_put]
      by_cases heq : name = other
      · subst heq
        rw [if_pos rfl]
        exact hentries.symm
      · rw [if_neg heq]
        exact hother

theorem classpath_grows {name : String} {entries : List ClasspathEntry}
    (h : (classpath name).run w = .ok (entries, w')) : w.Grows w' := (classpath_spec h).1

theorem sourceForTypeIn_grows {t : FileTree} {name binary : String} {source : Option Path}
    (h : (sourceForTypeIn t name binary).run w = .ok (source, w')) : w.Grows w' := by
  unfold sourceForTypeIn at h
  rw [StateT.run_bind] at h
  rcases hprojects : (closureProjects name).run w with e | ⟨projects, v⟩
  · rw [hprojects] at h
    cases h
  · rw [hprojects] at h
    cases h
    exact closureProjects_grows hprojects

/-- The source of a type as it is found within the closure of a project. -/
def foundSource (w : Workspace) (t : FileTree) (name binary : String) : Option Path :=
  ((sourceForTypeIn t name binary).run w).toOption.bind Prod.fst

theorem foundSource_eq (w : Workspace) (t : FileTree) (name binary : String) :
    w.foundSource t name binary = (w.closureOf name).bind fun names =>
      firstIn Project.sourceRoot (w.sourceOfType binary) t.isFile (names.filterMap w.project?) := by
  have hclosure := w.closure_eq name
  unfold foundSource sourceForTypeIn closureProjects
  simp only [StateT.run_bind]
  rcases hnames : w.closureOf name with _ | names
  · rw [hnames] at hclosure
    obtain ⟨e, he⟩ := hclosure
    rw [he]
    rfl
  · rw [hnames] at hclosure
    obtain ⟨v, hv, hprojects, hextension⟩ := hclosure
    rw [hv]
    have hproject : v.project? = w.project? := by
      funext other
      rw [project?, project?, hprojects]
    change firstIn Project.sourceRoot (v.sourceOfType binary) t.isFile
      (names.filterMap v.project?) = _
    rw [sourceOfType, hextension, hproject]
    rfl

theorem isFile_of_foundSource {t : FileTree} {name binary : String} {p : Path}
    (h : w.foundSource t name binary = some p) : t.isFile p := by
  rw [foundSource_eq] at h
  obtain ⟨names, -, hfound⟩ := Option.bind_eq_some_iff.mp h
  exact List.find?_some hfound

theorem Grows.foundSource_eq (h : w.Grows w') (t : FileTree) (name binary : String) :
    w'.foundSource t name binary = w.foundSource t name binary := by
  have hproject : w'.project? = w.project? := by
    funext other
    rw [project?, project?, h.projects]
  rw [Workspace.foundSource_eq, Workspace.foundSource_eq, h.closureOf, sourceOfType,
    h.sourceExtension, hproject]
  rfl

/-- The source that is found gets a number. -/
theorem fileForTypeIn_eq (t : FileTree) (name binary : String) (w : Workspace) :
    match w.foundSource t name binary with
    | some p => ∃ file, ((fileForTypeIn t name binary).run w).1 = some file ∧
        ((fileForTypeIn t name binary).run w).2.files.id? p = some file
    | none => ((fileForTypeIn t name binary).run w).1 = none := by
  change match w.foundSource t name binary with
    | some p => ∃ file, (fileForTypeIn t name binary w).1 = some file ∧
        (fileForTypeIn t name binary w).2.files.id? p = some file
    | none => (fileForTypeIn t name binary w).1 = none
  unfold foundSource fileForTypeIn
  rcases (sourceForTypeIn t name binary).run w with e | ⟨_ | p, v⟩
  · rfl
  · rfl
  · exact ⟨_, rfl, v.id?_fileId p⟩

theorem fileForTypeIn_grows (t : FileTree) (name binary : String) (w : Workspace) :
    w.Grows ((fileForTypeIn t name binary).run w).2 := by
  change w.Grows (fileForTypeIn t name binary w).2
  unfold fileForTypeIn
  split
  next p v hsource => exact (sourceForTypeIn_grows hsource).trans (fileId_grows v p)
  next v hsource => exact sourceForTypeIn_grows hsource
  next => exact Grows.refl w

end Rebuild.Workspace
