import Mathlib
import Rebuild.Build.LineCompiler
import Rebuild.Proofs.Build.Trees

/-! What the line compiler writes, and what is learnt from it. Main statement: the shape that is
learnt of a file is said by its source and by the directories of the tree, as long as none is made
for the artifacts. -/
namespace Rebuild.Build

variable {τ : Type} {s t : Session τ} {request : CompileRequest}

/-! ## Answers -/

namespace LineCompiler

/-- The artifacts of a source as files. -/
def files (r : CompileRequest) (o : Outline) (internal : String) : List (Path × Content) :=
  (o.artifacts internal).map fun (name, data) => (artifactPath r name, .bytes data)

theorem applyAll_writes (s : Session τ) (written : List (Path × List UInt8)) :
    s.applyAll (written.map fun (p, data) => .write p data) =
      { s with tree := s.tree.writeAll (written.map fun (p, data) => (p, .bytes data)) } := by
  induction written generalizing s with
  | nil => rfl
  | cons file rest ih => exact ih (s.apply (.write file.1 file.2))

theorem applyAll_emit (s : Session τ) (r : CompileRequest) (o : Outline) (internal : String) :
    s.applyAll (emit r o internal).1 =
      { s with tree := s.tree.writeAll (files r o internal) } := by
  have hwrites := applyAll_writes s
    ((o.artifacts internal).map fun (name, data) => (artifactPath r name, data))
  rw [List.map_map, List.map_map] at hwrites
  exact hwrites

/-- The artifacts that are reported were written. -/
theorem emit_artifacts (r : CompileRequest) (o : Outline) (internal : String) :
    (emit r o internal).2.artifacts ≠ [] ∧
      ∀ p ∈ (emit r o internal).2.artifacts, ∃ file ∈ files r o internal, file.1 = p := by
  refine ⟨by simp [emit], fun p hp => ?_⟩
  simp only [emit, List.mem_cons, List.mem_map] at hp
  simp only [files, Outline.artifacts, List.map_append, List.map_map, List.mem_append,
    List.mem_map, List.map_cons, List.map_nil, List.mem_singleton]
  rcases hp with rfl | ⟨name, hname, rfl⟩
  · exact ⟨_, .inr rfl, rfl⟩
  · exact ⟨_, .inl ⟨name, hname, rfl⟩, rfl⟩

theorem compile_eq (r : CompileRequest) (s : Session τ) :
    ((compile r s).1 = [] ∧ (compile r s).2.status ≠ .success) ∨
      ∃ binary text o, s.workspace.typeOfSource? r.path = some binary ∧
        s.tree.readText r.path = .ok text ∧ Outline.parse text = .ok o ∧
        compile r s = emit r o (Name.toInternal binary) := by
  unfold compile
  split
  next => exact .inl ⟨rfl, by simp [failure]⟩
  next binary hbinary =>
    split
    next => exact .inl ⟨rfl, by simp [failure]⟩
    next text htext =>
      split
      next => exact .inl ⟨rfl, by simp [failure]⟩
      next o ho =>
        unfold compileOutline
        split
        next => exact .inl ⟨rfl, by simp [failure]⟩
        next =>
          split
          next =>
            refine .inl ⟨rfl, ?_⟩
            simp only [failure]
            split_ifs <;> simp
          next => exact .inr ⟨binary, text, o, hbinary, htext, ho, rfl⟩

/-- The files that are written for a source, and the artifacts that are reported, if its
compilation succeeds. -/
def product? (w : Workspace) (t : FileTree) (path : Path) (project : Project) :
    Option (List (Path × Content) × List Path) := do
  let binary ← w.typeOfSource? path
  let text ← (t.readText path).toOption
  let o ← (Outline.parse text).toOption
  let r : CompileRequest := { file := 0, path, project, classpath := [] }
  let internal := Name.toInternal binary
  return (files r o internal, (emit r o internal).2.artifacts)

/-- A compilation that succeeds has no other effects than its product. -/
theorem compile_product {r : CompileRequest} (h : (compile r s).2.status = .success) :
    ∃ files artifacts, product? s.workspace s.tree r.path r.project = some (files, artifacts) ∧
      s.applyAll (compile r s).1 = { s with tree := s.tree.writeAll files } ∧
      (compile r s).2.artifacts = artifacts ∧ artifacts ≠ [] ∧
      ∀ p ∈ artifacts, ∃ file ∈ files, file.1 = p := by
  rcases compile_eq r s with ⟨-, hstatus⟩ | ⟨binary, text, o, hbinary, htext, ho, hcompile⟩
  · exact absurd h hstatus
  · obtain ⟨hne, hwritten⟩ := emit_artifacts r o (Name.toInternal binary)
    refine ⟨files r o (Name.toInternal binary), _, ?_, ?_, rfl, ?_, ?_⟩
    · simp only [product?, hbinary, htext, ho, hcompile, Except.toOption, bind, Option.bind,
        pure]
      rfl
    · rw [hcompile]
      exact applyAll_emit s r o _
    · rw [hcompile]
      exact hne
    · rw [hcompile]
      exact hwritten

end LineCompiler

/-! ## What is learnt -/

namespace Session

/-- What is learnt is learnt in the tree without the artifacts that were not produced again. -/
theorem learn_eq_of_reported (s : Session τ) (file : FileId) (p : Path) (project : String)
    {output : CompileOutput} (h : output.artifacts ≠ []) :
    let tree := deleteFiles s.tree (s.workspace.staleArtifacts s.tree p output.artifacts)
    ∃ table,
      let result := ({ s.cache with table } : Dependency.Cache _ τ).update (Classpath.finder tree)
        (fun q => (tree.read q).toOption) (Workspace.fileForTypeIn tree project) file
        output.artifacts s.workspace
      s.learn file p project output =
        (result.1, { s with tree, cache := result.2.1, workspace := result.2.2 }) := by
  intro tree
  obtain ⟨table, hstale⟩ := s.removeStale_eq p output.artifacts
  refine ⟨table, ?_⟩
  simp only [learn, takeArtifacts, List.isEmpty_iff, h, if_false, hstale, updateDependencies]
  rfl

/-- What is learnt of a file from artifacts that were reported. -/
theorem learn_spec (s : Session τ) (file : FileId) (p : Path) (project : String)
    {output : CompileOutput} (h : output.artifacts ≠ []) :
    let tree := deleteFiles s.tree (s.workspace.staleArtifacts s.tree p output.artifacts)
    let found := Dependency.shape (Dependency.Cache.loadArtifacts
      (fun q => (tree.read q).toOption) output.artifacts)
    (s.learn file p project output).2.tree = tree ∧
      ((s.learn file p project output).2.cache.record file).shape = found ∧
      ((s.learn file p project output).1.declarationsChanged ↔
        (s.cache.record file).shape ≠ found) ∧
      ∀ g, g ≠ file →
        ((s.learn file p project output).2.cache.record g).shape = (s.cache.record g).shape := by
  intro tree found
  obtain ⟨table, hlearn⟩ := s.learn_eq_of_reported file p project h
  let c : Dependency.Cache _ τ := { s.cache with table }
  let read (q : Path) := (tree.read q).toOption
  obtain ⟨table', hupdate, hupdated⟩ := Dependency.Cache.update_eq (Classpath.finder tree) read
    (Workspace.fileForTypeIn tree project) file output.artifacts c s.workspace
  have hfound : (c.findings (Classpath.finder tree) read output.artifacts).shape = found :=
    Dependency.Cache.shape_findings _ _ _ _
  rw [hlearn]
  refine ⟨rfl, ?_, ?_, fun g hg => ?_⟩
  · simp only
    rw [hupdated, (Dependency.Cache.record_absorb _ _ _ _).1, hfound]
  · simp only
    rw [hupdate, ← hfound]
    exact decide_eq_true_iff
  · simp only
    rw [hupdated]
    have hbare := Dependency.Cache.bare_absorb_of_ne { c with table := table' } file
      (c.findings (Classpath.finder tree) read output.artifacts)
      (c.foundTargets (Classpath.finder tree) read (Workspace.fileForTypeIn tree project) file
        output.artifacts s.workspace) hg
    have hshape := congrArg Dependency.Record.shape hbare
    exact hshape

end Session

/-! ## Shapes -/

namespace LineCompiler

/-- The source, the files written and the artifacts reported when a file is compiled as its source
stands in a tree. -/
def productOf? (w : Workspace) (t : FileTree) (file : FileId) :
    Option (Path × List (Path × Content) × List Path) := do
  let path ← w.files.path? file
  let project ← w.projectForSource? path
  let (files, artifacts) ← product? w t path project
  return (path, files, artifacts)

/-- The shape that artifacts show after they were written to a tree. -/
def shownShape (w : Workspace) (t : FileTree) (source : Path) (files : List (Path × Content))
    (artifacts : List Path) : List String :=
  Dependency.shape (Dependency.Cache.loadArtifacts
    (fun q => ((w.produce t source files artifacts).read q).toOption) artifacts)

/-- The directories of a tree say which shape artifacts show, unless writing them makes more. -/
theorem shownShape_eq (w : Workspace) {t u : FileTree} (ht : t.Proper) (hu : u.Proper)
    (hsame : t.SameDirectories u) (source : Path) {files : List (Path × Content)}
    (htkeep : t.SameDirectories (t.writeAll files))
    (hukeep : u.SameDirectories (u.writeAll files)) {artifacts : List Path}
    (hwritten : ∀ p ∈ artifacts, ∃ file ∈ files, file.1 = p) :
    shownShape w t source files artifacts = shownShape w u source files artifacts := by
  unfold shownShape Dependency.Cache.loadArtifacts
  congr 1
  refine List.filterMap_congr fun p hp => ?_
  have hread :=
    Workspace.produce_read_eq w source ht hu hsame htkeep hukeep artifacts (hwritten p hp)
  simp only [hread]

theorem product?_congr {w w' : Workspace} (hw : w.Grows w') {t t' : FileTree} {path : Path}
    (ht : t'.readText path = t.readText path) (project : Project) :
    product? w' t' path project = product? w t path project := by
  unfold product?
  rw [hw.typeOfSource?_eq, ht]

end LineCompiler

namespace Session

/-- What a successful compilation of a queued file leaves behind. -/
theorem settle_success {s : Session τ} {request : CompileRequest} {output : CompileOutput}
    (hstatus : output.status = .success) (hqueued : s.queue.contains request.file)
    (h : output.artifacts ≠ []) :
    let tree :=
      deleteFiles s.tree (s.workspace.staleArtifacts s.tree request.path output.artifacts)
    let found := Dependency.shape (Dependency.Cache.loadArtifacts
      (fun q => (tree.read q).toOption) output.artifacts)
    (s.settle request output).tree = tree ∧
      ((s.settle request output).cache.record request.file).shape = found ∧
      (s.Changes request output ↔ (s.cache.record request.file).shape ≠ found) ∧
      ∀ g, g ≠ request.file →
        ((s.settle request output).cache.record g).shape = (s.cache.record g).shape ∧
        (s.settle request output).cache.dependencies g = s.cache.dependencies g := by
  intro tree found
  have hsettle := settle_accepted hstatus hqueued
  obtain ⟨htree, hshape, hchanged, hothers⟩ :=
    learn_spec s request.file request.path request.project.name h
  obtain ⟨-, hcache, -⟩ :=
    acceptSuccess_eq s request.path request.file output request.project.name
  rw [hsettle, acceptSuccess_tree, hcache]
  refine ⟨htree, hshape, ?_, fun g hg => ⟨hothers g hg, ?_⟩⟩
  · unfold Changes
    rw [hchanged]
    simp only [hstatus, hqueued, true_and]
    rfl
  · exact learn_dependencies_of_ne _ _ _ _ _ hg

end Session

/-- A call of the line compiler that succeeds. -/
theorem settle_compile {w : Workspace} {u : FileTree} {s : Session τ} {request : CompileRequest}
    (hw : w.Grows s.workspace) (hu : s.tree.readText request.path = u.readText request.path)
    (hqueued : s.queue.contains request.file)
    (h : (LineCompiler.compile request s).2.status = .success) :
    let events := (LineCompiler.compile request s).1
    let output := (LineCompiler.compile request s).2
    let after := (s.applyAll events).settle request output
    ∃ files artifacts,
      LineCompiler.product? w u request.path request.project = some (files, artifacts) ∧
      (∀ p ∈ artifacts, ∃ file ∈ files, file.1 = p) ∧
      after.tree = w.produce s.tree request.path files artifacts ∧
      (after.cache.record request.file).shape =
        LineCompiler.shownShape w s.tree request.path files artifacts ∧
      after.queue = (s.queue.complete request.file).enqueueAll
        (if (s.cache.record request.file).shape = (after.cache.record request.file).shape then []
          else after.cache.dependents request.file) ∧
      ∀ g, g ≠ request.file →
        (after.cache.record g).shape = (s.cache.record g).shape ∧
        after.cache.dependencies g = s.cache.dependencies g := by
  intro events output after
  obtain ⟨files, artifacts, hproduct, happly, hartifacts, hne, hwritten⟩ :=
    LineCompiler.compile_product h
  rw [LineCompiler.product?_congr hw hu] at hproduct
  have hstale : (s.applyAll events).workspace.staleArtifacts (s.applyAll events).tree request.path
      output.artifacts = w.staleArtifacts (s.tree.writeAll files) request.path artifacts := by
    rw [happly]
    unfold Workspace.staleArtifacts
    rw [hw.artifactsForSource_eq, hartifacts]
  have hqueue := (s.applyAll events).settle_queue request output
  obtain ⟨htree, hshape, hchanges, hothers⟩ := Session.settle_success (s := s.applyAll events) h
    (by rw [happly]; exact hqueued) (by rw [hartifacts]; exact hne)
  rw [hstale] at htree hshape hchanges
  have hcache : (s.applyAll events).cache = s.cache := by rw [happly]
  refine ⟨files, artifacts, hproduct, hwritten, ?_, ?_, ?_, fun g hg => hcache ▸ hothers g hg⟩
  · exact htree.trans (by rw [happly]; rfl)
  · exact hshape.trans (by rw [happly, hartifacts]; rfl)
  · have hfan : (s.applyAll events).fanOut request output =
        if (s.cache.record request.file).shape = (after.cache.record request.file).shape then []
          else after.cache.dependents request.file := by
      unfold Session.fanOut
      rw [← hshape, hcache] at hchanges
      by_cases heq : (s.cache.record request.file).shape =
          (after.cache.record request.file).shape
      · rw [if_pos heq, if_neg fun hc => hchanges.mp hc heq]
      · rw [if_neg heq, if_pos (hchanges.mpr heq)]
    have hstatus : output.status = .success := h
    rw [← hfan]
    refine hqueue.trans ?_
    rw [hstatus, happly]
    rfl

end Rebuild.Build
