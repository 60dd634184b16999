import Mathlib
import Rebuild.Proofs.Classpath
import Rebuild.Proofs.FileTree.Spellings
import Rebuild.Proofs.Workspace.Preorder

/-! Class paths without repetitions. Main statement: leaving out the entries whose paths came before
changes nothing about what is found, as long as entries of one path are of one kind and their
spellings are taken alike. -/
namespace Rebuild

namespace ClasspathEntry

variable {t : FileTree} {internal : String} {entry other : ClasspathEntry}
  {l : List ClasspathEntry}

def isArchive : ClasspathEntry → Bool
  | archive _ => true
  | directory _ => false

/-- The path that is opened when an entry is looked into. -/
def opened (internal : String) : ClasspathEntry → Path
  | directory dir => dir.join ⟨Classpath.artifactName internal⟩
  | archive p => p

/-- What an entry has of a class if it is read now. -/
def artifact? (t : FileTree) (internal : String) : ClasspathEntry → Option (List UInt8)
  | directory dir => Classpath.findInDirectory t dir internal
  | archive p => Classpath.findInSnapshot (t.snapshot p).toOption.join internal

/-- Entries of one kind. What is opened in both, or in neither, is too long for the system, and both
or neither ask for a directory where an archive should be. -/
structure Alike (internal : String) (entry other : ClasspathEntry) : Prop where
  kind : entry.isArchive = other.isArchive
  ending : entry.isArchive → entry.path.endsOpen = other.path.endsOpen
  size : (entry.opened internal).isShort = (other.opened internal).isShort

instance (internal : String) (entry other : ClasspathEntry) :
    Decidable (entry.Alike internal other) :=
  decidable_of_iff (entry.isArchive = other.isArchive ∧
      (entry.isArchive → entry.path.endsOpen = other.path.endsOpen) ∧
      (entry.opened internal).isShort = (other.opened internal).isShort)
    ⟨fun h => ⟨h.1, h.2.1, h.2.2⟩, fun h => ⟨h.kind, h.ending, h.size⟩⟩

/-- Entries of one path are alike. -/
def Uniform (internal : String) (l : List ClasspathEntry) : Prop :=
  ∀ entry ∈ l, ∀ other ∈ l, entry.path.components = other.path.components →
    entry.Alike internal other

instance (internal : String) (l : List ClasspathEntry) : Decidable (Uniform internal l) :=
  List.decidableBAll _ l

theorem Alike.resolve_eq (h : entry.Alike internal other)
    (hsame : entry.path.components = other.path.components) (t : FileTree) :
    t.resolve (entry.opened internal) = t.resolve (other.opened internal) := by
  apply t.resolve_eq_of_alike
  obtain ⟨hkind, hending, hsize⟩ := h
  cases entry with
  | directory dir =>
    cases other with
    | directory dir' => exact .join hsame hsize
    | archive p => cases hkind
  | archive p =>
    cases other with
    | directory dir => cases hkind
    | archive q => exact ⟨hsame, hending rfl, hsize⟩

theorem Alike.artifact?_eq (h : entry.Alike internal other)
    (hsame : entry.path.components = other.path.components) :
    entry.artifact? t internal = other.artifact? t internal := by
  have hresolve := h.resolve_eq hsame t
  have hkind := h.kind
  cases entry with
  | directory dir =>
    cases other with
    | directory dir' =>
      exact congrArg Except.toOption (FileTree.read_congr hresolve)
    | archive p => cases hkind
  | archive p =>
    cases other with
    | directory dir => cases hkind
    | archive q =>
      have hsnapshot := FileTree.snapshot_congr hresolve
      exact congrArg (fun members => Classpath.findInSnapshot members.toOption.join internal)
        hsnapshot

/-! ## Searching -/

/-- The first entry of each path answers for all entries of the path that would answer alike. -/
theorem findSome?_dedup {β : Type} {f : ClasspathEntry → Option β} {taken : List (List Component)}
    (hsame : ∀ entry ∈ l, ∀ other ∈ l, entry.path.components = other.path.components →
      f entry = f other)
    (htaken : ∀ entry ∈ l, entry.path.components ∈ taken → f entry = none) :
    (dedup taken l).findSome? f = l.findSome? f := by
  induction l generalizing taken with
  | nil => rfl
  | cons first rest ih =>
    have hrest {entry other : ClasspathEntry} (he : entry ∈ rest) (ho : other ∈ rest) :=
      hsame entry (List.mem_cons_of_mem first he) other (List.mem_cons_of_mem first ho)
    rw [dedup]
    split_ifs with hfirst
    · rw [List.findSome?_cons, htaken first List.mem_cons_self hfirst]
      exact ih (fun e he o ho => hrest he ho) fun e he => htaken e (List.mem_cons_of_mem first he)
    · rw [List.findSome?_cons, List.findSome?_cons]
      cases hfound : f first with
      | some found => rfl
      | none =>
        refine ih (fun e he o ho => hrest he ho) fun e he hcomponents => ?_
        rcases List.mem_cons.mp hcomponents with heq | hold
        · rw [← hfound]
          exact hsame e (List.mem_cons_of_mem first he) first List.mem_cons_self heq
        · exact htaken e (List.mem_cons_of_mem first he) hold

/-- Leaving out entries whose paths came before changes nothing, if entries of one path are alike. -/
theorem Uniform.findSome?_dedup (h : Uniform internal l) (t : FileTree) :
    (dedup [] l).findSome? (artifact? t internal) = l.findSome? (artifact? t internal) :=
  ClasspathEntry.findSome?_dedup
    (fun entry he other ho hsame => (h entry he other ho hsame).artifact?_eq hsame) nofun

theorem Uniform.consistent (h : Uniform internal l) (t : FileTree) :
    Classpath.Consistent t { entries := l } :=
  fun _ _ hp hq hsame => FileTree.snapshot_congr ((h _ hp _ hq hsame).resolve_eq hsame t)

end ClasspathEntry

namespace Classpath

open ClasspathEntry

theorem find_new {t : FileTree} {l : List ClasspathEntry} (h : Consistent t { entries := l })
    (internal : String) :
    (Classpath.find t { entries := l } internal).1 = l.findSome? (artifact? t internal) := by
  rw [(find_eq h (.refl _) internal).1]
  congr 1

theorem find_dedup (t : FileTree) (l : List ClasspathEntry) (internal : String) :
    (Classpath.find t { entries := dedup [] l } internal).1 =
      (dedup [] l).findSome? (artifact? t internal) :=
  find_new (consistent_dedup t l .empty) internal

end Classpath

namespace Workspace

open ClasspathEntry

variable {w : Workspace} {name : String}

/-- The entries of some projects one after the other, with all repetitions. -/
def plainClasspath (w : Workspace) (names : List String) : List ClasspathEntry :=
  (names.filterMap w.project?).flatMap Project.ownClasspath

theorem eq_ok_of_map_fst {α : Type} {r : Except WorkspaceError (α × Workspace)} {a : α}
    (h : r.map Prod.fst = .ok a) : ∃ v, r = .ok (a, v) := by
  rcases r with _ | ⟨b, v⟩
  · cases h
  · cases h
    exact ⟨v, rfl⟩

theorem Made.run_classFinder (h : w.Made) (hname : w.projects.contains name) :
    ∃ v, (classFinder name).run w =
      .ok ({ entries := dedup [] (w.plainClasspath (w.reached name)) }, v) := by
  apply eq_ok_of_map_fst
  rw [(classFinder_responds name).map_run, h.coherent.classpathAnswer_eq, if_pos hname]
  rfl

theorem Made.run_unitedClasspath (h : w.Made) : ∃ v, unitedClasspath.run w =
    .ok (dedup [] (w.projects.keys.flatMap fun name =>
      dedup [] (w.plainClasspath (w.reached name))), v) := by
  apply eq_ok_of_map_fst
  rw [unitedClasspath_responds.map_run, h.coherent.mapM_classpathAnswer fun name hname =>
    (Dict.contains_eq w.projects name).mpr hname, List.flatMap_def]
  rfl

/-- A class is found by the finder of a project as in the entries of the projects in its closure, one
after the other with all repetitions; and by the class path of the workspace as in the class paths
of its projects one after the other. For this, entries of one path must be of one kind, and the
system must take their spellings alike. -/
theorem deduplication_hides_nothing (hw : w.Made) (t : FileTree) (internal : String) :
    (∀ name, w.projects.contains name → ∃ names v c u, (closure name).run w = .ok (names, v) ∧
      (classFinder name).run w = .ok (c, u) ∧
      (Uniform internal (w.plainClasspath names) → (c.find t internal).1 =
        (Classpath.find t { entries := w.plainClasspath names } internal).1)) ∧
    ∃ united v finders, unitedClasspath.run w = .ok (united, v) ∧
      List.Forall₂ (fun name c => ∃ u, (classFinder name).run w = .ok (c, u)) w.projects.keys
        finders ∧
      (Uniform internal (finders.flatMap Classpath.entries) →
        (Classpath.find t { entries := united } internal).1 =
          finders.findSome? fun c => (c.find t internal).1) := by
  constructor
  · intro name hname
    obtain ⟨v, hclosure, -⟩ := hw.run_closure hname
    obtain ⟨u, hfinder⟩ := hw.run_classFinder hname
    refine ⟨_, v, _, u, hclosure, hfinder, fun huniform => ?_⟩
    rw [Classpath.find_dedup, huniform.findSome?_dedup,
      Classpath.find_new (huniform.consistent t)]
  · obtain ⟨v, hunited⟩ := hw.run_unitedClasspath
    refine ⟨_, v, w.projects.keys.map fun name =>
      { entries := dedup [] (w.plainClasspath (w.reached name)) }, hunited, ?_, fun huniform => ?_⟩
    · rw [List.forall₂_map_right_iff, List.forall₂_same]
      exact fun name hname => hw.run_classFinder ((Dict.contains_eq w.projects name).mpr hname)
    · rw [List.flatMap_map] at huniform
      rw [Classpath.find_dedup, huniform.findSome?_dedup, List.findSome?_map]
      simp only [Function.comp_def, Classpath.find_dedup, ← List.head?_filterMap,
        List.filterMap_flatMap, List.head?_flatMap]

/-- A spelling that asks for a directory hides the archive, although it cannot be opened itself. -/
example : (Classpath.find (({} : FileTree).write ⟨"a.jar"⟩ (.archive [("p/A.class", [0])] false))
      { entries := dedup [] [.archive ⟨"a.jar/"⟩, .archive ⟨"a.jar"⟩] } "p/A").1 = none ∧
    (Classpath.find (({} : FileTree).write ⟨"a.jar"⟩ (.archive [("p/A.class", [0])] false))
      { entries := [.archive ⟨"a.jar/"⟩, .archive ⟨"a.jar"⟩] } "p/A").1 = some [0] := by
  decide +kernel

/-- A library that two projects spell differently, and a build root that is a library of another
project. -/
def sharing : Workspace where
  projects := ⟨[
    ("app", ⟨"app", ⟨"app"⟩, ⟨"app/out"⟩, [.archive ⟨"lib//a.jar"⟩, .directory ⟨"core/out/"⟩],
      ["core"]⟩),
    ("core", ⟨"core", ⟨"core"⟩, ⟨"core/out"⟩, [.archive ⟨"lib/a.jar"⟩], []⟩)]⟩

def sharedFiles : FileTree :=
  (({} : FileTree).write ⟨"lib/a.jar"⟩ (.archive [("p/A.class", [0])] false)).write
    ⟨"core/out/p/B.class"⟩ (.bytes [1])

theorem sharing_made : sharing.Made := by
  apply (Made.empty "java" "class").addProjects
  exact rebuild_eq_ok (w := sharing) (by unfold Named; decide) (by decide) "java" "class"

/-- The later spellings of both paths are left out. -/
theorem deduplication_hides_nothing_shared :
    sharing.Made ∧ sharing.projects.contains "app" ∧ ∃ names v c u,
      (closure "app").run sharing = .ok (names, v) ∧ (classFinder "app").run sharing = .ok (c, u) ∧
      c.entries.length < (sharing.plainClasspath names).length ∧
      Uniform "p/B" (sharing.plainClasspath names) ∧
      (c.find sharedFiles "p/B").1 = some [1] ∧
      (Classpath.find sharedFiles { entries := sharing.plainClasspath names } "p/B").1 =
        some [1] := by
  have hname : sharing.projects.contains "app" := by decide
  obtain ⟨names, v, c, u, hclosure, hfinder, hfound⟩ :=
    (deduplication_hides_nothing sharing_made sharedFiles "p/B").1 "app" hname
  have hnames : names = sharing.reached "app" :=
    (congrArg Prod.fst (Except.ok.inj hclosure)).symm
  obtain rfl : { entries := dedup [] (sharing.plainClasspath (sharing.reached "app")) } = c :=
    congrArg Prod.fst (Except.ok.inj hfinder)
  subst hnames
  have huniform : Uniform "p/B" (sharing.plainClasspath (sharing.reached "app")) := by decide +kernel
  have hfirst : (Classpath.find sharedFiles
      { entries := dedup [] (sharing.plainClasspath (sharing.reached "app")) } "p/B").1 =
        some [1] := by
    decide +kernel
  exact ⟨sharing_made, hname, _, v, _, u, hclosure, hfinder, by decide +kernel, huniform, hfirst,
    (hfound huniform).symm.trans hfirst⟩

/-- A library that is the build root of another project. -/
def shadowing : Workspace where
  projects := ⟨[
    ("app", ⟨"app", ⟨"app"⟩, ⟨"app/out"⟩, [.archive ⟨"core.jar"⟩], ["core"]⟩),
    ("core", ⟨"core", ⟨"core"⟩, ⟨"core.jar"⟩, [], []⟩)]⟩

theorem shadowing_made : shadowing.Made := by
  apply (Made.empty "java" "class").addProjects
  exact rebuild_eq_ok (w := shadowing) (by unfold Named; decide) (by decide) "java" "class"

/-- The directory goes by the path of what was listed as an archive before, and is left out. -/
theorem directory_hidden_by_archive :
    shadowing.Made ∧ ∃ names v c u, (closure "app").run shadowing = .ok (names, v) ∧
      (classFinder "app").run shadowing = .ok (c, u) ∧
      (c.find (({} : FileTree).write ⟨"core.jar/p/A.class"⟩ (.bytes [0])) "p/A").1 = none ∧
      (Classpath.find (({} : FileTree).write ⟨"core.jar/p/A.class"⟩ (.bytes [0]))
        { entries := shadowing.plainClasspath names } "p/A").1 = some [0] := by
  have hname : shadowing.projects.contains "app" := by decide
  obtain ⟨v, hclosure, -⟩ := shadowing_made.run_closure hname
  obtain ⟨u, hfinder⟩ := shadowing_made.run_classFinder hname
  exact ⟨shadowing_made, _, v, _, u, hclosure, hfinder, by decide +kernel, by decide +kernel⟩

end Workspace

end Rebuild
