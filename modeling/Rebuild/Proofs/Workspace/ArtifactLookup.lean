import Mathlib
import Rebuild.Proofs.Workspace.Artifacts
import Rebuild.Proofs.Workspace.Deduplication
import Rebuild.Proofs.Workspace.SourceNames

/-! The artifacts of a source file as classes. Main statement: an artifact that is listed for a
source file is found as the class that its place below the build root stands for, but places stand
for classes only if the extension of artifacts is that of class files. -/
namespace Rebuild

open Classpath (artifactName)

/-! ## Paths of class files -/

namespace Path

/-- A path stands for a class below a root if it is where the artifact of the class is looked for. -/
def StandsFor (root p : Path) (internal : String) : Prop :=
  (root.join ⟨artifactName internal⟩).components = p.components

variable {root p : Path} {internal ext : String}

theorem getLast?_artifactName (root : Path) (internal : String) : ∃ stem : List Char,
    (root.join ⟨artifactName internal⟩).pieces.getLast? = some (stem ++ '.' :: "class".toList) := by
  have hne := Text.splitChars_ne_nil '/' internal.toList
  have hsplit := (List.dropLast_append_getLast hne).symm
  refine ⟨(Text.splitChars '/' internal.toList).getLast hne, ?_⟩
  rw [getLast?_pieces_join, getLast?_pieces, artifactName, String.toList_append,
    Text.splitChars_append_of_not_mem hsplit (by decide), List.getLast?_concat]
  rfl

theorem not_isVacuous_artifact (stem : List Char) :
    ¬ isVacuous (stem ++ '.' :: "class".toList) := by
  intro h
  rcases Bool.or_eq_true_iff.mp h with h | h <;>
    have hlength := congrArg List.length (beq_iff_eq.mp h) <;> simp at hlength

theorem endsOpen_artifactName (root : Path) (internal : String) :
    (root.join ⟨artifactName internal⟩).endsOpen = false := by
  obtain ⟨stem, hlast⟩ := getLast?_artifactName root internal
  rw [endsOpen, hlast, Option.any_some]
  exact Bool.eq_false_iff.mpr (not_isVacuous_artifact stem)

/-- A path that stands for a class has no other extension than that of class files. -/
theorem StandsFor.extension?_eq (h : root.StandsFor p internal) (hext : p.extension? = some ext) :
    ext = "class" := by
  obtain ⟨stem, hlast⟩ := getLast?_artifactName root internal
  have hname : isName (stem ++ '.' :: "class".toList) := by
    refine isName_iff.mpr ⟨not_isVacuous_artifact stem, fun hup => ?_⟩
    have hlength := congrArg List.length hup
    simp at hlength
  have hfile : p.fileName? = some (String.ofList (stem ++ '.' :: "class".toList)) := by
    rw [fileName?, ← h]
    exact fileName?_of_getLast? hlast hname
  rw [extension?, hfile, Option.bind_some, String.toList_ofList] at hext
  obtain ⟨found, hfound, rfl⟩ := Option.map_eq_some_iff.mp hext
  obtain ⟨hsplit, -, hdot, -⟩ := splitName_eq_some_iff.mp (Prod.ext rfl hfound)
  have hafter {front more : List Char} (h : '.' ∉ more) :
      Name.afterLast '.' (front ++ '.' :: more) = more := by
    rw [List.append_cons]
    exact (Name.cut_at_last (.inr ⟨front, rfl⟩) h).2
  rw [← hafter hdot, ← hsplit, hafter (by decide), String.ofList_toList]

/-- What lies below a root under the name of a class file stands for a class. -/
theorem StandsFor.of_relative (hrelative : p.relativeTo? root = some ⟨artifactName internal⟩) :
    root.StandsFor p internal := by
  obtain ⟨hwords, habsolute, -⟩ := words_relativeTo? hrelative
  refine components_eq_of_words ?_
  by_cases hroot : root.text = ""
  · rw [join_of_empty hroot, hwords, words_of_empty hroot, List.nil_append]
  · have hnot : (⟨artifactName internal⟩ : Path).isAbsolute = false :=
      Bool.eq_false_iff.mpr fun h => words_ne_nil hroot (habsolute h)
    have hsteps := steps_of_words hwords hroot
    rw [words_join hroot hnot, hwords, List.append_cancel_left_eq, words_eq]
    rcases lead_cases (⟨artifactName internal⟩ : Path) with ⟨h, -⟩ | ⟨-, hlead, -⟩ | ⟨-, hlead, -⟩
    · exact absurd h (Bool.eq_false_iff.mp hnot)
    · have hdot : ['.'] ∈ p.steps := by
        rw [hsteps, words_eq, hlead]
        simp
      exact absurd (steps_spec hdot).2 (by decide)
    · rw [hlead, List.nil_append]

theorem fileName?_of_words {base : List (List Char)} {r : Path} (h : p.words = base ++ r.words)
    (hne : r.words ≠ []) : r.fileName? = p.fileName? := by
  have hcomponents : r.components ≠ [] := by rwa [components_eq_map, ne_eq, List.map_eq_nil_iff]
  unfold fileName?
  rw [components_eq_map p, h, List.map_append, ← components_eq_map r,
    List.getLast?_append_of_ne_nil _ hcomponents]

/-- A relative path of a class file is that of some class. -/
theorem exists_artifactName {r : Path} (htrim : r.Trimmed) (hext : r.extension? = some "class") :
    ∃ internal, r = ⟨artifactName internal⟩ := by
  obtain ⟨name, hname, hext⟩ := Option.bind_eq_some_iff.mp hext
  obtain ⟨ext, hsplit, hclass⟩ := Option.map_eq_some_iff.mp hext
  obtain rfl : ext = "class".toList := by rw [← hclass, String.toList_ofList]
  obtain ⟨hparts, -⟩ := splitName_eq_some_iff.mp (Prod.ext rfl hsplit)
  obtain ⟨front, hfront⟩ := List.getLast?_eq_some_iff.mp (htrim.getLast? hname).1
  rw [hparts] at hfront
  refine ⟨(ofPieces r.isAbsolute (front ++ [(splitName name.toList).1])).text, ?_⟩
  have htext := text_ofPieces_append r.isAbsolute front (splitName name.toList).1
    ('.' :: "class".toList)
  rw [← hfront, ofPieces_pieces] at htext
  refine congrArg Path.mk (String.toList_inj.mp ?_)
  rw [artifactName, String.toList_append]
  exact htext

end Path

namespace Workspace

variable {w : Workspace} {t : FileTree} {source a : Path} {p : Project} {internal : String}
  {bytes : List UInt8}

theorem extension?_of_mem_artifactsForSource (h : a ∈ w.artifactsForSource t source) :
    a.extension? = some w.artifactExtension := by
  obtain ⟨p, binary, directory, stem, name, -, -, -, -, -, -, hartifact⟩ :=
    mem_artifactsForSource.mp h
  exact beq_iff_eq.mp (Bool.and_eq_true_iff.mp hartifact).1

/-- The class path of a project starts with its build root. -/
theorem Made.run_classFinder_cons (h : w.Made) (hp : p ∈ w.projects.values) : ∃ rest v,
    (classFinder p.name).run w = .ok ({ entries := .directory p.buildRoot :: rest }, v) := by
  obtain ⟨rest, hrest⟩ := h.closureProjects_cons hp
  obtain ⟨v, hrun⟩ := h.run_classFinder (h.named.contains hp)
  rw [plainClasspath, hrest] at hrun
  exact ⟨_, v, hrun⟩

theorem resolve_eq_ok_of_read {p : Path} (h : t.read p = .ok bytes) :
    ∃ place, t.resolve p = .ok place := by
  cases hplace : t.resolve p with
  | ok place => exact ⟨place, rfl⟩
  | error fault =>
    unfold FileTree.read FileTree.content FileTree.lookup at h
    rw [hplace] at h
    cases h

/-- A readable artifact of a source file is found as each class that its place below the build root
stands for, if the path that is looked for is not too long for the system. With class files as
artifacts, each artifact below the build root stands for a class; with any other extension, none
does. -/
theorem artifacts_found_as_classes (hw : w.Made) (t : FileTree)
    (hp : w.projectForSource? source = some p) (ha : a ∈ w.artifactsForSource t source)
    (hread : t.read a = .ok bytes) :
    ∃ c v, (classFinder p.name).run w = .ok (c, v) ∧
      (∀ internal, p.buildRoot.StandsFor a internal → w.artifactExtension = "class" ∧
        ((p.buildRoot.join ⟨artifactName internal⟩).isShort →
          (c.find t internal).1 = some bytes)) ∧
      (w.artifactExtension = "class" → ∀ relative, a.relativeTo? p.buildRoot = some relative →
        relative.text ≠ "" → ∃ internal, relative = ⟨artifactName internal⟩ ∧
          p.buildRoot.StandsFor a internal) := by
  have hmem : p ∈ w.projects.values := List.mem_of_find?_eq_some hp
  have hext := extension?_of_mem_artifactsForSource ha
  obtain ⟨rest, v, hrun⟩ := hw.run_classFinder_cons hmem
  refine ⟨_, v, hrun, fun internal hstands => ⟨hstands.extension?_eq hext, fun hshort => ?_⟩, ?_⟩
  · obtain ⟨place, hplace⟩ := resolve_eq_ok_of_read hread
    have hsame : t.resolve (p.buildRoot.join ⟨artifactName internal⟩) = t.resolve a :=
      (FileTree.resolve_of_components hstands.symm hplace (Path.endsOpen_artifactName _ _)
        hshort).trans hplace.symm
    have hfirst : Classpath.findInDirectory t p.buildRoot internal = some bytes := by
      rw [Classpath.findInDirectory, FileTree.read_congr hsame, hread]
      rfl
    rw [Classpath.find, Classpath.findIn, Classpath.findInEntry, hfirst]
  · intro hclass relative hrelative hne
    obtain ⟨hwords, -, htrim⟩ := Path.words_relativeTo? hrelative
    have hname := Path.fileName?_of_words hwords (Path.words_ne_nil hne)
    have hextension : relative.extension? = some "class" := by
      rw [Path.extension?, hname, ← hclass]
      exact hext
    obtain ⟨internal, rfl⟩ := Path.exists_artifactName htrim hextension
    exact ⟨internal, rfl, .of_relative hrelative⟩

/-- A workspace with one project, whose artifacts have some extension. -/
def lone (artifactExtension : String) : Workspace where
  artifactExtension
  projects := ⟨[("app", ⟨"app", ⟨"app/src"⟩, ⟨"app/build"⟩, [], []⟩)]⟩

theorem lone_made (artifactExtension : String) : (lone artifactExtension).Made := by
  apply (Made.empty "java" artifactExtension).addProjects
  refine rebuild_eq_ok (w := lone artifactExtension) (fun e he => ?_) (List.nodup_singleton _)
    "java" artifactExtension
  rw [List.mem_singleton.mp he]

/-- Its source file, and the artifact of a nested type. -/
def compiled (artifactExtension : String) : FileTree :=
  (({} : FileTree).write ⟨"app/src/p/A.java"⟩ (.bytes [])).write
    ⟨"app/build/p/A$B." ++ artifactExtension⟩ (.bytes [0])

theorem mem_artifactsForSource_of_texts {text : String}
    (h : (w.artifactsForSource t source).map Path.text = [text]) :
    ⟨text⟩ ∈ w.artifactsForSource t source := by
  obtain ⟨found, hfound, rfl⟩ := List.mem_map.mp (h ▸ List.mem_singleton_self text)
  exact hfound

/-- A class file of a nested type is found. -/
theorem artifacts_found_as_classes_nested :
    (lone "class").Made ∧ ⟨"app/build/p/A$B.class"⟩ ∈
      (lone "class").artifactsForSource (compiled "class") ⟨"app/src/p/A.java"⟩ ∧
    (compiled "class").read ⟨"app/build/p/A$B.class"⟩ = .ok [0] ∧
    ∃ c v, (classFinder "app").run (lone "class") = .ok (c, v) ∧
      (c.find (compiled "class") "p/A$B").1 = some [0] := by
  have ha : ⟨"app/build/p/A$B.class"⟩ ∈
      (lone "class").artifactsForSource (compiled "class") ⟨"app/src/p/A.java"⟩ :=
    mem_artifactsForSource_of_texts (by decide +kernel)
  have hread : (compiled "class").read ⟨"app/build/p/A$B.class"⟩ = .ok [0] := by decide +kernel
  have hp : (lone "class").projectForSource? ⟨"app/src/p/A.java"⟩ =
      some ⟨"app", ⟨"app/src"⟩, ⟨"app/build"⟩, [], []⟩ := by rfl
  obtain ⟨c, v, hrun, hfound, -⟩ :=
    artifacts_found_as_classes (lone_made "class") (compiled "class") hp ha hread
  have hstands : (⟨"app/build"⟩ : Path).StandsFor ⟨"app/build/p/A$B.class"⟩ "p/A$B" := by
    unfold Path.StandsFor
    decide
  exact ⟨lone_made "class", ha, hread, c, v, hrun, (hfound "p/A$B" hstands).2 (by decide)⟩

/-- With another extension the artifact is listed as well, but not found. -/
theorem artifact_not_found_as_class :
    (lone "cls").Made ∧ ⟨"app/build/p/A$B.cls"⟩ ∈
      (lone "cls").artifactsForSource (compiled "cls") ⟨"app/src/p/A.java"⟩ ∧
    (compiled "cls").read ⟨"app/build/p/A$B.cls"⟩ = .ok [0] ∧
    ∃ c v, (classFinder "app").run (lone "cls") = .ok (c, v) ∧
      (c.find (compiled "cls") "p/A$B").1 = none := by
  have hname : (lone "cls").projects.contains "app" := by decide
  obtain ⟨v, hrun⟩ := (lone_made "cls").run_classFinder hname
  exact ⟨lone_made "cls", mem_artifactsForSource_of_texts (by decide +kernel),
    by decide +kernel, _, v, hrun, by decide +kernel⟩

end Workspace

end Rebuild
