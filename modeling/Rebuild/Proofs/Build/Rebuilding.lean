import Mathlib
import Rebuild.Proofs.Build.Descent
import Rebuild.Proofs.Build.Diagnostics
import Rebuild.Proofs.Build.Records

/-! Builds when nothing has changed. Main statement: if after a build each source would be compiled
to the artifacts that are in place, building all of them again compiles each once and leaves
everything as it is. -/
namespace Rebuild.Build

open LineCompiler

variable {τ : Type} {w : Workspace} {t u : FileTree} {s s' : Session τ} {file : FileId}
  {request : CompileRequest}

/-! ## Compiling in trees that are alike -/

namespace LineCompiler

theorem firstMissing_eq (h : t.Alike u) (binary : String) (c : Classpath) (types : List String) :
    firstMissing t binary c types = firstMissing u binary c types := by
  induction types generalizing c with
  | nil => rfl
  | cons type rest ih =>
    unfold firstMissing
    simp only [h.find_eq, ih]

theorem sourceForType?_eq {v v' : Workspace} (hv : w.Grows v) (hv' : w.Grows v') (h : t.Alike u)
    (type : String) : v.sourceForType? t type = v'.sourceForType? u type := by
  unfold Workspace.sourceForType? Workspace.firstIn Workspace.sourceOfType
  simp only [hv.projects, hv'.projects, hv.sourceExtension, hv'.sourceExtension, funext h.isFile_eq]

/-- The answer does not depend on what was computed and numbered meanwhile. -/
theorem compile_eq_of_alike (hs : w.Grows s.workspace) (hs' : w.Grows s'.workspace)
    (h : s.tree.Alike s'.tree) (request : CompileRequest) :
    compile request s = compile request s' := by
  unfold compile compileOutline
  simp only [hs.typeOfSource?_eq, hs'.typeOfSource?_eq, h.readText_eq, firstMissing_eq h,
    sourceForType?_eq hs hs' h]

/-- A compilation that succeeds reports nothing. -/
theorem diagnostics_of_success (h : (compile request s).2.status = .success) :
    (compile request s).2.diagnostics = [] := by
  rcases compile_eq request s with ⟨-, hstatus⟩ | ⟨_, _, _, -, -, -, hcompile⟩
  · exact absurd h hstatus
  · rw [hcompile]
    rfl

/-- What artifacts show in a tree as it stands. -/
def shapeIn (t : FileTree) (artifacts : List Path) : List String :=
  Dependency.shape (Dependency.Cache.loadArtifacts (fun q => (t.read q).toOption) artifacts)

theorem shapeIn_alike (h : t.Alike u) (artifacts : List Path) :
    shapeIn t artifacts = shapeIn u artifacts := by
  unfold shapeIn
  simp only [h.read_eq]

end LineCompiler

theorem request_of_grows {opened : Session τ} (h : s.request file = .ok (some (request, opened)))
    (hgrows : s.workspace.Grows s'.workspace) (hnamed : s'.workspace.Named) :
    ∃ opened', s'.request file = .ok (some (request, opened')) := by
  obtain ⟨rfl, -⟩ := Session.request_eq_some h
  obtain ⟨hpath, hproject⟩ := Session.request_source h
  have hpath' := Workspace.FileRegistry.path?_of_prefix hgrows.paths hpath
  have hproject' := (hgrows.projectForSource?_eq request.path).trans hproject
  have hmem := (Workspace.of_projectForSource? hproject').1
  obtain ⟨entries, v, hclasspath⟩ := Workspace.classpath_eq_ok (hnamed.contains hmem)
  have hentries : entries = request.classpath := by
    have hold := Session.request_classpath h
    rw [← hgrows.classpathOf, (Workspace.classpath_spec hclasspath).2] at hold
    exact Option.some.inj hold
  refine ⟨{ s' with workspace := v }, ?_⟩
  unfold Session.request
  simp only [hpath', hproject', hclasspath, hentries]

theorem productOf?_of_request {opened : Session τ}
    (h : s.request file = .ok (some (request, opened))) (t : FileTree) :
    productOf? s.workspace t file =
      (product? s.workspace t request.path request.project).map fun product =>
        (request.path, product) := by
  obtain ⟨hpath, hproject⟩ := Session.request_source h
  unfold productOf?
  simp only [hpath, hproject, bind, Option.bind]
  cases product? s.workspace t request.path request.project <;> rfl

/-- What a call that succeeds leaves besides the record and the queue. -/
theorem call_of_success (r : Running Unit τ) {opened : Session τ}
    (hqueued : opened.queue.contains request.file)
    (h : (compile request opened).2.status = .success) :
    let called := ({ r with session := opened } : Running Unit τ).call lineCompiler request
    called.compiled = r.compiled ++ [request.file] ∧ called.interrupted = r.interrupted ∧
      opened.workspace.Grows called.session.workspace ∧
      called.session.cancelled = opened.cancelled ∧
      ∀ g, called.session.diagnostics.get? g =
        if request.file = g then none else opened.diagnostics.get? g := by
  intro called
  obtain ⟨hsession, -⟩ := call_lineCompiler r opened request
  obtain ⟨files, artifacts, -, happly, -⟩ := compile_product h
  have hcalled : called = ({ r with session := opened } : Running Unit τ).call lineCompiler request :=
    rfl
  have hanswer : (lineCompiler.compile request opened r.tool).output = (compile request opened).2 :=
    rfl
  refine ⟨?_, ?_, ?_, ?_, fun g => ?_⟩
  · simp only [hcalled, Running.call, Running.invoke, Running.settle, hanswer, h]
  · simp only [hcalled, Running.call, Running.invoke, Running.settle, hanswer, h]
  · have hgrows := Session.settle_grows (opened.applyAll (compile request opened).1) request
      (compile request opened).2
    rw [hsession]
    rwa [happly] at hgrows ⊢
  · obtain ⟨_, _, _, _, _, hframe⟩ := Session.settle_frame
      (opened.applyAll (compile request opened).1) request (compile request opened).2
    rw [hsession, hframe, happly]
  · have hcontains : (opened.applyAll (compile request opened).1).queue.contains request.file := by
      rw [happly]
      exact hqueued
    rw [hsession, Session.diagnostics_settle, h]
    simp only [hcontains, ↓reduceIte]
    rw [Session.get?_setDiagnostics, diagnostics_of_success h, happly]
    rfl

/-- Compiled as it stands the file would succeed, and it would write what is in place. -/
def Session.Stands (s : Session τ) (file : FileId) : Prop :=
  ∃ request opened written artifacts, s.request file = .ok (some (request, opened)) ∧
    (compile request opened).2.status = .success ∧
    productOf? s.workspace s.tree file = some (request.path, written, artifacts) ∧
    (s.workspace.produce s.tree request.path written artifacts).Alike s.tree

theorem Session.stands_iff : s.Stands file ↔
    (s.request file).toOption.join.any fun (request, opened) =>
      (compile request opened).2.status = .success ∧
      (productOf? s.workspace s.tree file).any fun (source, written, artifacts) =>
        (s.workspace.produce s.tree source written artifacts).Alike s.tree := by
  constructor
  · rintro ⟨request, opened, written, artifacts, hrequest, hsuccess, hproduct, hplace⟩
    simp [hrequest, hsuccess, hproduct, hplace, Except.toOption]
  · intro h
    obtain ⟨⟨request, opened⟩, hasked, hfacts⟩ := (Option.any_eq_true _ _).mp h
    obtain ⟨hsuccess, hplaces⟩ := of_decide_eq_true hfacts
    obtain ⟨⟨source, written, artifacts⟩, hproduct, hplace⟩ := (Option.any_eq_true _ _).mp hplaces
    have hrequest := eq_ok_of_toOption (Option.join_eq_some_iff.mp hasked)
    have hsource := hproduct
    rw [productOf?_of_request hrequest] at hsource
    obtain ⟨_, -, heq⟩ := Option.map_eq_some_iff.mp hsource
    cases heq
    exact ⟨request, opened, written, artifacts, hrequest, hsuccess, hproduct,
      of_decide_eq_true hplace⟩

instance (s : Session τ) (file : FileId) : Decidable (s.Stands file) :=
  decidable_of_iff _ Session.stands_iff.symm

/-- The file stands as it is, what others see of it is recorded, and nothing is said of it. -/
structure UpToDate (s : Session τ) (file : FileId) : Prop where
  stands : s.Stands file
  shape : ∀ source written artifacts,
    productOf? s.workspace s.tree file = some (source, written, artifacts) →
      (s.cache.record file).shape = shapeIn s.tree artifacts
  silent : s.diagnostics.get? file = none

/-- A build of some files that are up to date, some of which were compiled already. -/
structure Repeats (s : Session τ) (todo : List FileId) (r : Running Unit τ) : Prop where
  grows : s.workspace.Grows r.session.workspace
  named : r.session.workspace.Named
  proper : r.session.tree.Proper
  tree : r.session.tree.Alike s.tree
  shape : ∀ g, (r.session.cache.record g).shape = (s.cache.record g).shape
  shown : ∀ g, r.session.diagnostics.get? g = s.diagnostics.get? g
  queue : ∀ g, r.session.queue.state? g =
    if g ∈ todo ∧ g ∉ r.compiled then some .pending else none
  within : ∀ g ∈ r.compiled, g ∈ todo
  once : r.compiled.Nodup
  attempts : r.attempts.map Attempt.file = r.compiled
  running : r.session.cancelled = false ∧ r.interrupted = false

namespace Repeats

variable {todo : List FileId} {r : Running Unit τ}

theorem isDue_iff (h : Repeats s todo r) (g : FileId) :
    r.session.queue.isDue g ↔ g ∈ todo ∧ g ∉ r.compiled := by
  rw [Queue.isDue_iff, h.queue]
  split_ifs with hg <;> simp [hg]

/-- The compiler is asked what it would have been asked at first, and gives the same answer. -/
theorem answer (h : Repeats s todo r) {started : Session τ}
    (hrequest : s.request file = .ok (some (request, started)))
    (hsuccess : (compile request started).2.status = .success) :
    ∃ opened, (r.session.take file).request file = .ok (some (request, opened)) ∧
      (compile request opened).2.status = .success := by
  obtain ⟨opened, hopen⟩ : ∃ opened, (r.session.take file).request file =
      .ok (some (request, opened)) := request_of_grows hrequest h.grows h.named
  refine ⟨opened, hopen, ?_⟩
  have hgrows := h.grows.trans (Session.request_eq_some hopen).2.2.1
  have halike : opened.tree.Alike started.tree := by
    rw [request_tree hopen, request_tree hrequest]
    exact h.tree
  rw [compile_eq_of_alike hgrows (Session.request_eq_some hrequest).2.2.1 halike]
  exact hsuccess

/-- What is produced is in place, and shows what is recorded. -/
theorem learnt (h : Repeats s todo r) (hproper : s.tree.Proper) {opened : Session τ}
    (hopened : Opened r.session request.file request opened)
    (hsuccess : (compile request opened).2.status = .success)
    {written : List (Path × Content)} {artifacts : List Path}
    (hproduct : product? s.workspace s.tree request.path request.project = some (written, artifacts))
    (hplace : (s.workspace.produce s.tree request.path written artifacts).Alike s.tree)
    (hshape : (s.cache.record request.file).shape = shapeIn s.tree artifacts) :
    let after := (opened.applyAll (compile request opened).1).settle request
      (compile request opened).2
    after.tree.Proper ∧ after.tree.Alike s.tree ∧
      (∀ g, (after.cache.record g).shape = (s.cache.record g).shape) ∧
      after.queue = opened.queue.complete request.file := by
  intro after
  obtain ⟨_, _, hproduct', -, htree, hshown, hqueue, hothers⟩ :=
    settle_compile (u := s.tree) (h.grows.trans hopened.grows)
      (by rw [hopened.tree, h.tree.readText_eq]) hopened.contains hsuccess
  cases hproduct'.symm.trans hproduct
  rw [hopened.tree] at htree hshown
  have hproduced := (Workspace.produce_alike s.workspace request.path h.proper hproper h.tree
    written artifacts).trans hplace
  have hsame : (after.cache.record request.file).shape = (s.cache.record request.file).shape := by
    rw [hshape]
    exact hshown.trans (shapeIn_alike hproduced artifacts)
  refine ⟨?_, ?_, fun g => ?_, ?_⟩
  · rw [htree]
    exact (FileTree.foldl_deleteFile_spec (h.proper.writeAll written) _).2.1
  · rw [htree]
    exact hproduced
  · by_cases hg : g = request.file
    · rw [hg, hsame]
    · rw [(hothers g hg).1, hopened.cache, h.shape]
  · rw [if_pos (by rw [hopened.cache, h.shape, ← hsame])] at hqueue
    exact hqueue

/-- Compiling a file that is up to date changes nothing but the queue. -/
theorem compileFile (h : Repeats s todo r) (hproper : s.tree.Proper)
    (hfile : UpToDate s file) (hdue : r.session.queue.isDue file) :
    ∃ r', ({ r with session := r.session.take file } : Running Unit τ).compileFile lineCompiler
        file = .ok r' ∧ Repeats s todo r' ∧ r'.compiled = r.compiled ++ [file] := by
  obtain ⟨htodo, hnew⟩ := (h.isDue_iff file).mp hdue
  obtain ⟨request, started, written, artifacts, hrequest, hsuccess, hproduct, hplace⟩ := hfile.stands
  obtain ⟨opened, hopen, hsuccess⟩ := h.answer hrequest hsuccess
  have hopened : Opened r.session file request opened := .of_request hdue hopen
  obtain rfl := hopened.requested
  have hfound := hproduct
  rw [productOf?_of_request hrequest] at hfound
  obtain ⟨_, hproduct', heq⟩ := Option.map_eq_some_iff.mp hfound
  cases heq
  obtain ⟨hafterProper, htree, hshape, hqueue⟩ := h.learnt hproper hopened hsuccess hproduct' hplace
    (hfile.shape _ _ _ hproduct)
  obtain ⟨hcompiled, hrunning, hworld, hcancelled, hshown⟩ :=
    call_of_success r hopened.contains hsuccess
  have hattempts := Running.call_attempts lineCompiler ({ r with session := opened } : Running Unit τ)
    request
  rw [← (call_lineCompiler r opened request).1] at hafterProper htree hshape hqueue
  have hkept := Session.request_session hopen
  refine ⟨({ r with session := opened } : Running Unit τ).call lineCompiler request, ?_,
    ⟨h.grows.trans (hopened.grows.trans hworld), h.named.grows (hopened.grows.trans hworld),
      hafterProper, htree, hshape, fun g => ?_, fun g => ?_, fun g hg => ?_, ?_, ?_, ?_⟩, hcompiled⟩
  · unfold Running.compileFile
    simp only [hopen]
  · rw [hshown]
    split_ifs with hg
    · rw [← hg, hfile.silent]
    · rw [hkept]
      exact h.shown g
  · rw [hqueue, hcompiled, Queue.state?_complete, hopened.state?, hopened.state?, h.queue]
    by_cases hg : request.file = g
    · simp [hg]
    · simp [hg, Ne.symm hg, h.queue]
  · rw [hcompiled] at hg
    rcases List.mem_append.mp hg with hold | hlast
    · exact h.within g hold
    · rwa [List.mem_singleton.mp hlast]
  · rw [hcompiled]
    exact List.nodup_append.mpr ⟨h.once, List.nodup_singleton _, fun a ha b hb heq =>
      hnew (List.mem_singleton.mp hb ▸ heq ▸ ha)⟩
  · rw [hattempts, hcompiled, h.attempts]
  · rw [hcancelled, hrunning, hkept]
    exact h.running

/-- A pass compiles each of its files that was not compiled yet. -/
theorem pass (h : Repeats s todo r) (hproper : s.tree.Proper)
    (hfiles : ∀ g ∈ todo, UpToDate s g) (order : List FileId) :
    ∃ r', Running.pass lineCompiler order r = .ok r' ∧ Repeats s todo r' ∧
      (∀ g ∈ r.compiled, g ∈ r'.compiled) ∧ ∀ g ∈ order, g ∈ todo → g ∈ r'.compiled := by
  induction order generalizing r with
  | nil => exact ⟨r, rfl, h, fun _ hg => hg, by simp⟩
  | cons file rest ih =>
    unfold Running.pass
    rw [if_neg (by simp [h.running])]
    by_cases hdue : r.session.queue.isDue file
    · obtain ⟨r₁, hcompile, hnext, hcompiled⟩ :=
        h.compileFile hproper (hfiles file ((h.isDue_iff file).mp hdue).1) hdue
      obtain ⟨r', hpass, hlast, hkept, hrest⟩ := ih hnext
      refine ⟨r', ?_, hlast, fun g hg => hkept g ?_, fun g hg htodo => ?_⟩
      · simp only [hdue, ↓reduceIte, hcompile, hnext.running, Bool.false_eq_true]
        exact hpass
      · rw [hcompiled]
        exact List.mem_append_left _ hg
      · rcases List.mem_cons.mp hg with rfl | hg
        · refine hkept g ?_
          rw [hcompiled]
          exact List.mem_append_right _ (List.mem_singleton_self g)
        · exact hrest g hg htodo
    · obtain ⟨r', hpass, hlast, hkept, hrest⟩ := ih h
      refine ⟨r', by rwa [if_neg hdue], hlast, hkept, fun g hg htodo => ?_⟩
      rcases List.mem_cons.mp hg with rfl | hg
      · rw [h.isDue_iff, not_and_not_right] at hdue
        exact hkept g (hdue htodo)
      · exact hrest g hg htodo

/-- One pass suffices, and a second one finds nothing left. -/
theorem passes (h : Repeats s todo r) (hproper : s.tree.Proper)
    (hfiles : ∀ g ∈ todo, UpToDate s g) (k : Nat) :
    ∃ r', Running.passes lineCompiler (k + 2) r = some (.ok r') ∧ Repeats s todo r' ∧
      ∀ g ∈ todo, g ∈ r'.compiled := by
  have hdone {r : Running Unit τ} (h : Repeats s todo r) (hall : ∀ g ∈ todo, g ∈ r.compiled) :
      r.session.queue.runnable = [] := by
    rw [List.eq_nil_iff_forall_not_mem]
    intro g hg
    obtain ⟨state, hstate⟩ := (Queue.contains_iff _ _).mp (Queue.contains_of_mem_runnable hg)
    rw [h.queue, if_neg fun hopen => hopen.2 (hall g hopen.1)] at hstate
    cases hstate
  rcases hrunnable : r.session.queue.runnable with _ | ⟨first, others⟩
  · refine ⟨r, by simp only [Running.passes, hrunnable], h, fun g hg => ?_⟩
    by_contra hnew
    have hmem := Queue.mem_runnable_of_isDue ((h.isDue_iff g).mpr ⟨hg, hnew⟩)
    rw [hrunnable] at hmem
    cases hmem
  · obtain ⟨order, hplan, horder⟩ := Running.plan_eq_ok r.session (first :: others)
    obtain ⟨r', hpass, hlast, hkept, hrest⟩ := h.pass hproper hfiles order
    have hall : ∀ g ∈ todo, g ∈ r'.compiled := by
      intro g hg
      by_cases hold : g ∈ r.compiled
      · exact hkept g hold
      · have hmem := Queue.mem_runnable_of_isDue ((h.isDue_iff g).mpr ⟨hg, hold⟩)
        exact hrest g ((horder g).mpr (hrunnable ▸ hmem)) hg
    refine ⟨r', ?_, hlast, hall⟩
    simp only [Running.passes, hrunnable, hplan, hpass, hlast.running, hdone hlast hall,
      Bool.false_eq_true, ↓reduceIte]

end Repeats

/-! ## All files queued again -/

/-- The artifacts that a successful compilation reports. -/
def Moment.reported (m : Moment τ) : List Path :=
  match m.happening with
  | .settled _ output => if output.status = .success then output.artifacts else []
  | _ => []

theorem Moment.reported_eq {m : Moment τ} {output : CompileOutput}
    (hm : m.happening = .settled request output) (hstatus : output.status = .success) :
    m.reported = output.artifacts := by
  simp only [reported, hm, hstatus, ↓reduceIte]

/-- What a successful compilation reports is in a tree as it was then. -/
def Moment.Lasts (u : FileTree) (m : Moment τ) : Prop :=
  ∀ p ∈ m.reported, (m.after.tree.read p).toOption = (u.read p).toOption

instance (u : FileTree) (m : Moment τ) : Decidable (m.Lasts u) :=
  inferInstanceAs (Decidable (∀ p ∈ m.reported, _))

/-- A build of some files on its way. Each that has a product in a tree is queued, or what the
product shows there is recorded and nothing is said of the file. -/
structure Catching (w : Workspace) (u : FileTree) (todo : List FileId) (r : Running Unit τ) :
    Prop where
  grows : w.Grows r.session.workspace
  known : ∀ g ∈ todo, ∀ source written artifacts,
    productOf? w u g = some (source, written, artifacts) →
      r.session.queue.contains g ∨ r.session.diagnostics.get? g = none ∧
        (r.session.cache.record g).shape = shapeIn u artifacts

theorem inProject_of_productOf? {product : Path × List (Path × Content) × List Path}
    (h : productOf? w u file = some product) : w.InProject file := by
  unfold productOf? at h
  obtain ⟨path, hpath, h⟩ := Option.bind_eq_some_iff.mp h
  obtain ⟨project, hproject, -⟩ := Option.bind_eq_some_iff.mp h
  exact ⟨path, hpath, project, Workspace.of_projectForSource? hproject⟩

namespace Catching

variable {todo : List FileId} {r r' : Running Unit τ} {opened : Session τ}

/-- A file that lies in no project has no product. -/
theorem dropped (h : Catching w u todo r) (hdue : r.session.queue.isDue file)
    (hnone : (r.session.take file).request file = .ok none) :
    Catching w u todo { r with session := (r.session.take file).drop file } := by
  refine ⟨h.grows, fun g hg source written artifacts hproduct => ?_⟩
  refine (h.known g hg source written artifacts hproduct).imp_left fun hqueued => ?_
  have hne : file ≠ g := fun hfile =>
    Session.request_eq_none hnone (hfile ▸ (inProject_of_productOf? hproduct).grows h.grows)
  obtain ⟨state, hstate⟩ := (Queue.contains_iff _ _).mp hqueued
  refine (Queue.contains_iff _ _).mpr ⟨state, ?_⟩
  change ((r.session.take file).queue.remove file).state? g = _
  rw [Queue.state?_remove, if_neg hne, state?_take hdue, if_neg hne, hstate]

/-- A file whose compilation fails stays queued. -/
theorem failed (h : Catching w u todo r) (hopened : Opened r.session file request opened)
    (hdiagnostics : opened.diagnostics = r.session.diagnostics)
    (hstatus : (compile request opened).2.status ≠ .success) :
    Catching w u todo (({ r with session := opened } : Running Unit τ).call lineCompiler request) := by
  obtain ⟨hsession, -⟩ := call_lineCompiler r opened request
  obtain ⟨hevents, -⟩ | ⟨_, _, _, -, -, -, hemit⟩ := compile_eq request opened
  · rw [hevents] at hsession
    have hsettle := settle_of_ne_success opened request hstatus
    have hgrows := opened.settle_grows request (compile request opened).2
    refine ⟨hsession ▸ h.grows.trans (hopened.grows.trans hgrows),
      fun g hg source written artifacts hproduct => ?_⟩
    rw [hsession]
    change (opened.settle request _).queue.contains g ∨
      (opened.settle request _).diagnostics.get? g = none ∧
      ((opened.settle request _).cache.record g).shape = _
    have hstate := hopened.state?_settled (compile request opened).2.status g
    rw [hsettle.2.2, hsettle.2.1, hopened.cache]
    by_cases hfile : file = g
    · refine .inl ((Queue.contains_iff _ _).mpr ?_)
      rw [hstate, if_pos hfile]
      cases hanswer : (compile request opened).2.status with
      | success => exact absurd hanswer hstatus
      | retryable => exact ⟨_, rfl⟩
      | fatal => exact ⟨_, rfl⟩
    · rw [opened.diagnostics_settle_of_ne (fun hrequest => hfile (hopened.requested ▸ hrequest)),
        hdiagnostics]
      refine (h.known g hg source written artifacts hproduct).imp_left fun hqueued => ?_
      obtain ⟨state, hold⟩ := (Queue.contains_iff _ _).mp hqueued
      exact (Queue.contains_iff _ _).mpr ⟨state, by rw [hstate, if_neg hfile, hold]⟩
  · rw [hemit] at hstatus
    exact absurd rfl hstatus

/-- A file whose compilation succeeds leaves the queue, unless it depends on itself, and what it
shows is recorded. -/
theorem learnt (h : Catching w u todo r) (hopened : Opened r.session file request opened)
    (hdiagnostics : opened.diagnostics = r.session.diagnostics)
    (hread : opened.tree.readText request.path = u.readText request.path)
    (hlasts : ∀ p ∈ (compile request opened).2.artifacts,
      ((({ r with session := opened } : Running Unit τ).call lineCompiler request).session.tree.read
        p).toOption = (u.read p).toOption)
    (hstatus : (compile request opened).2.status = .success) :
    Catching w u todo (({ r with session := opened } : Running Unit τ).call lineCompiler request) := by
  obtain ⟨-, -, hworld, -, hshown⟩ := call_of_success r hopened.contains hstatus
  obtain ⟨files, produced, hproduct, -, htree, hshape, hqueue, hothers⟩ :=
    settle_compile (h.grows.trans hopened.grows) hread hopened.contains hstatus
  obtain ⟨_, _, hproduct', -, hproduced, -⟩ := compile_product hstatus
  rw [product?_congr (h.grows.trans hopened.grows) hread, hproduct] at hproduct'
  cases hproduct'
  rw [hproduced] at hlasts
  rw [← (call_lineCompiler r opened request).1] at htree hshape hqueue hothers
  refine ⟨h.grows.trans (hopened.grows.trans hworld),
    fun g hg source written artifacts hgiven => ?_⟩
  by_cases hrequest : request.file = g
  · subst hrequest
    obtain ⟨path, hpath, -⟩ := inProject_of_productOf? hgiven
    rw [hopened.requested] at hgiven hpath
    cases hgiven.symm.trans (hopened.productOf? h.grows ⟨path, hpath⟩ hproduct)
    refine .inr ⟨by rw [hshown, if_pos rfl], hshape.trans ?_⟩
    unfold shownShape shapeIn Dependency.Cache.loadArtifacts
    rw [← htree]
    exact congrArg Dependency.shape (List.filterMap_congr fun p hp => by simp only [hlasts p hp])
  · have hfile : ¬ file = g := fun hfile => hrequest (hopened.requested.trans hfile)
    rw [hshown, if_neg hrequest, hdiagnostics, (hothers g (Ne.symm hrequest)).1, hopened.cache, hqueue]
    refine (h.known g hg source written artifacts hgiven).imp_left fun hqueued => ?_
    refine (Queue.Keeps.enqueueAll _ _).contains ?_
    obtain ⟨state, hstate⟩ := (Queue.contains_iff _ _).mp hqueued
    refine (Queue.contains_iff _ _).mpr ⟨state, ?_⟩
    rw [Queue.state?_complete, if_neg fun hboth => hrequest hboth.1, hopened.state?, if_neg hfile, hstate]

theorem compileFile (h : Catching w u todo r) (hdue : r.session.queue.isDue file)
    (hcompile : ({ r with session := r.session.take file } : Running Unit τ).compileFile
      lineCompiler file = .ok r')
    (hmoments : ∀ m ∈ ({ r with session := r.session.take file } : Running Unit τ).compileMoments
      lineCompiler file, m.ReadsAs u ∧ m.Lasts u) : Catching w u todo r' := by
  unfold Running.compileFile at hcompile
  unfold Running.compileMoments at hmoments
  rcases hrequest : (r.session.take file).request file with e | _ | ⟨request, opened⟩
  · rw [hrequest] at hcompile
    cases hcompile
  · rw [hrequest] at hcompile
    cases hcompile
    exact h.dropped hdue hrequest
  simp only [hrequest] at hcompile hmoments
  cases hcompile
  have hopened : Opened r.session file request opened := .of_request hdue hrequest
  have hdiagnostics : opened.diagnostics = r.session.diagnostics := by
    rw [Session.request_session hrequest]
    rfl
  by_cases hstatus : (compile request opened).2.status = .success
  · have hread := (hmoments _ (List.mem_cons_self ..)).1 request rfl
    have hlasts := (hmoments _ (List.mem_cons_of_mem _ (List.mem_append_right _
      (List.mem_singleton_self _)))).2
    refine h.learnt hopened hdiagnostics (hopened.tree ▸ hread) (fun p hp => ?_) hstatus
    rw [(call_lineCompiler r opened request).1]
    refine hlasts p ?_
    rw [Moment.reported_eq rfl hstatus]
    exact hp
  · exact h.failed hopened hdiagnostics hstatus

theorem passes {n : Nat} (h : Catching w u todo r)
    (hpasses : Running.passes lineCompiler n r = some (.ok r'))
    (hmoments : ∀ m ∈ r.passesMoments lineCompiler n, m.ReadsAs u ∧ m.Lasts u) :
    Catching w u todo r' := by
  have hcomposes : Running.Composes lineCompiler fun (r : Running Unit τ) moments r' =>
      (∀ m ∈ moments, m.ReadsAs u ∧ m.Lasts u) → Catching w u todo r → Catching w u todo r' := by
    refine ⟨fun r _ h => h, fun r _ h => ⟨h.grows, h.known⟩, fun hfirst hrest hall h => ?_,
      fun hdue hcompile hall h => ?_⟩
    · obtain ⟨hmoments, hmore⟩ := List.forall_mem_append.mp hall
      exact hrest hmore (hfirst hmoments h)
    · exact h.compileFile hdue hcompile fun m hm => hall m (List.mem_cons_of_mem _ hm)
  exact hcomposes.passes hpasses hmoments h

end Catching

/-! ## Two builds -/

variable {σ : Type} {n : Nat} {cancelled : Bool} {report : Report}

end Rebuild.Build
