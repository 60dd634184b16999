import Mathlib
import Rebuild.Proofs.Build.Emission
import Rebuild.Proofs.Build.Retries
import Rebuild.Proofs.Build.Settlement

/-! Why builds with the line compiler come to an end. While no directories are made, what others see
of a file changes once at most; and there are only finitely many places where directories are made.
Main statement: as long as the sources stay as they are, each compilation leaves less to do. -/
namespace Rebuild.Build

open LineCompiler

variable {τ : Type} {w : Workspace} {u : FileTree} {files : Finset FileId} {options : Options}

/-- What the compiler is told as it is called. -/
def Moment.request? (m : Moment τ) : Option CompileRequest :=
  match m.happening with
  | .called request => some request
  | _ => none

/-- If the compiler is called, the source is as it stands in a tree. -/
def Moment.ReadsAs (u : FileTree) (m : Moment τ) : Prop :=
  ∀ request ∈ m.request?, m.before.tree.readText request.path = u.readText request.path

instance (u : FileTree) (m : Moment τ) : Decidable (m.ReadsAs u) :=
  inferInstanceAs (Decidable (∀ request ∈ m.request?, _))

/-! ## What is left to do -/

/-- Others see of the file what they would see after it was compiled again, as long as no
directories are made. -/
def Stable (w : Workspace) (u : FileTree) (s : Session τ) (file : FileId) : Prop :=
  ∀ source written artifacts, productOf? w u file = some (source, written, artifacts) →
    ∀ t : FileTree, t.Proper → s.tree.SameDirectories t →
      t.SameDirectories (t.writeAll written) →
      (s.cache.record file).shape = shownShape w t source written artifacts

theorem stable_congr {s s' : Session τ} {file : FileId}
    (htree : s.tree.SameDirectories s'.tree)
    (hshape : (s'.cache.record file).shape = (s.cache.record file).shape) :
    Stable w u s' file ↔ Stable w u s file := by
  unfold Stable
  rw [hshape]
  constructor
  · intro h source written artifacts hproduct t ht hsame
    exact h source written artifacts hproduct t ht (htree.symm.trans hsame)
  · intro h source written artifacts hproduct t ht hsame
    exact h source written artifacts hproduct t ht (htree.trans hsame)

/-- Where directories are made for the artifacts of some files. -/
def madeFor (w : Workspace) (u : FileTree) (files : Finset FileId) : Finset (List String) :=
  files.biUnion fun file => (((productOf? w u file).map fun product =>
    (product.2.1.flatMap fun written => FileTree.writtenPlaces written.1).toFinset).getD ∅)

theorem mem_madeFor {file : FileId} (hfile : file ∈ files) {source : Path}
    {written : List (Path × Content)} {artifacts : List Path}
    (hproduct : productOf? w u file = some (source, written, artifacts)) {q : List String}
    (hq : ∃ f ∈ written, q ∈ FileTree.writtenPlaces f.1) : q ∈ madeFor w u files := by
  refine Finset.mem_biUnion.mpr ⟨file, hfile, ?_⟩
  rw [hproduct]
  simpa using hq

open Classical in
/-- The directories that can still be made, the files of which others can still come to see
something else, the calls that may still be to be tried again, and the files that are due. -/
noncomputable def workLeft (w : Workspace) (u : FileTree) (files : Finset FileId)
    (options : Options) (r : Running Unit τ) : ℕ ×ₗ ℕ ×ₗ ℕ ×ₗ ℕ :=
  toLex (((madeFor w u files).filter fun q => ¬ r.session.tree.isDirectoryAt q).card,
    toLex ((files.filter fun file => ¬ Stable w u r.session file).card,
      toLex (options.retryLimit - r.retries,
        (files.filter fun file => r.session.queue.isDue file).card)))

/-! ## Compiling a file -/

/-- What is left of a compilation: either nothing was learnt, or the file has a product. -/
inductive Effect (w : Workspace) (u : FileTree) (file : FileId) (r r' : Running Unit τ) : Prop where
  | unlearnt (htree : r'.session.tree = r.session.tree)
      (hcache : r'.session.cache = r.session.cache)
      (hcontains : ∀ g, r'.session.queue.contains g → r.session.queue.contains g)
      (hdue : ∀ g, r'.session.queue.isDue g → r.session.queue.isDue g)
      (hprogress : r'.retries = r.retries + 1 ∨
        r'.retries = r.retries ∧ ¬ r'.session.queue.isDue file)
  | learnt {source : Path} {written : List (Path × Content)} {artifacts : List Path}
      (hproduct : productOf? w u file = some (source, written, artifacts))
      (hwritten : ∀ p ∈ artifacts, ∃ f ∈ written, f.1 = p)
      (htree : r'.session.tree = w.produce r.session.tree source written artifacts)
      (hshape : (r'.session.cache.record file).shape =
        shownShape w r.session.tree source written artifacts)
      (hothers : ∀ g, g ≠ file →
        (r'.session.cache.record g).shape = (r.session.cache.record g).shape ∧
        r'.session.cache.dependencies g = r.session.cache.dependencies g)
      (hretries : r'.retries = r.retries)
      (hcontains : ∀ g, r'.session.queue.contains g →
        r.session.queue.contains g ∨ g ∈ r'.session.cache.dependents file)
      (hdue : (r'.session.cache.record file).shape = (r.session.cache.record file).shape →
        ∀ g, r'.session.queue.isDue g → r.session.queue.isDue g ∧ g ≠ file)

theorem settle_of_ne_success (s : Session τ) (request : CompileRequest) {output : CompileOutput}
    (h : output.status ≠ .success) :
    (s.settle request output).tree = s.tree ∧ (s.settle request output).cache = s.cache ∧
      (s.settle request output).queue = s.queue.settled request.file output.status := by
  unfold Session.settle
  cases hstatus : output.status with
  | success => exact absurd hstatus h
  | retryable => exact ⟨rfl, rfl, rfl⟩
  | fatal => exact ⟨rfl, rfl, rfl⟩

theorem state?_take {s : Session τ} {file : FileId} (hdue : s.queue.isDue file) (g : FileId) :
    (s.take file).queue.state? g = if file = g then some .compiling else s.queue.state? g := by
  change (s.queue.setState file .compiling).state? g = _
  rw [Queue.state?_setState]
  split_ifs with hg
  · subst hg
    obtain ⟨state, hstate⟩ := (Queue.contains_iff _ _).mp (Queue.contains_of_isDue hdue)
    rw [hstate]
    rfl
  · rfl

/-- A file that is due was due before, unless its state has changed. -/
theorem isDue_of_state? {q q' : Queue} {file g : FileId} {state : Option EntryState}
    (hstate : q'.state? g = if file = g then state else q.state? g)
    (hnot : state ≠ some .pending ∧ state ≠ some .retrying) (hdue : q'.isDue g) :
    q.isDue g ∧ g ≠ file := by
  rw [Queue.isDue_iff, hstate] at hdue
  split_ifs at hdue with hg
  · exact absurd hdue (by simp [hnot])
  · exact ⟨(Queue.isDue_iff q g).mpr hdue, Ne.symm hg⟩

theorem call_lineCompiler (r : Running Unit τ) (opened : Session τ) (request : CompileRequest) :
    let called := ({ r with session := opened } : Running Unit τ).call lineCompiler request
    let answer := LineCompiler.compile request opened
    called.session = (opened.applyAll answer.1).settle request answer.2 ∧
      called.retries = r.retries + if answer.2.status = .retryable then 1 else 0 :=
  ⟨Running.call_session lineCompiler _ request, Running.call_retries lineCompiler _ request⟩

/-- A session that is about to compile a file, which was due in an earlier session. -/
structure Opened (s : Session τ) (file : FileId) (request : CompileRequest) (opened : Session τ) :
    Prop where
  due : s.queue.isDue file
  requested : request.file = file
  source : s.workspace.files.path? file = some request.path
  project : s.workspace.projectForSource? request.path = some request.project
  grows : s.workspace.Grows opened.workspace
  tree : opened.tree = s.tree
  cache : opened.cache = s.cache
  state? : ∀ g, opened.queue.state? g = if file = g then some .compiling else s.queue.state? g

namespace Opened

variable {s opened : Session τ} {file g : FileId} {request : CompileRequest}

theorem of_request (hdue : s.queue.isDue file)
    (h : (s.take file).request file = .ok (some (request, opened))) :
    Opened s file request opened := by
  obtain ⟨hfile, -, hgrows, hqueue, hcache⟩ := Session.request_eq_some h
  obtain ⟨hsource, hproject⟩ := Session.request_source h
  refine ⟨hdue, hfile, hsource, hproject, hgrows, request_tree (s := s.take file) h, hcache,
    fun g => ?_⟩
  rw [hqueue]
  exact state?_take hdue g

/-- The file has the product that its number had in a smaller workspace. -/
theorem productOf? (h : Opened s file request opened) (hgrows : w.Grows s.workspace)
    (hnumber : ∃ path, w.files.path? file = some path) {written : List (Path × Content)}
    {artifacts : List Path}
    (hproduct : product? w u request.path request.project = some (written, artifacts)) :
    LineCompiler.productOf? w u file = some (request.path, written, artifacts) := by
  obtain ⟨path, hpath⟩ := hnumber
  have heq : path = request.path := Option.some.inj
    ((Workspace.FileRegistry.path?_of_prefix hgrows.paths hpath).symm.trans h.source)
  have hproject := h.project
  rw [hgrows.projectForSource?_eq] at hproject
  simp only [LineCompiler.productOf?, hpath, heq, hproject, hproduct, bind, Option.bind, pure]

theorem contains (h : Opened s file request opened) : opened.queue.contains request.file :=
  (Queue.contains_iff _ _).mpr ⟨.compiling, by rw [h.requested, h.state?, if_pos rfl]⟩

/-- The answer changes the state of the file only. -/
theorem state?_settled (h : Opened s file request opened) (status : CompileStatus) (g : FileId) :
    (opened.queue.settled request.file status).state? g =
      if file = g then status.leaves else s.queue.state? g := by
  rw [Queue.state?_settled, h.requested, h.state?, h.state?, if_pos rfl]
  by_cases hg : file = g <;> simp [hg]

theorem contains_of_settled (h : Opened s file request opened) {status : CompileStatus}
    (hg : (opened.queue.settled request.file status).contains g) : s.queue.contains g := by
  by_cases hfile : file = g
  · exact hfile ▸ Queue.contains_of_isDue h.due
  · obtain ⟨state, hstate⟩ := (Queue.contains_iff _ _).mp hg
    rw [h.state?_settled, if_neg hfile] at hstate
    exact (Queue.contains_iff _ _).mpr ⟨state, hstate⟩

end Opened

namespace Effect

variable {file : FileId} {request : CompileRequest} {r : Running Unit τ} {opened : Session τ}

/-- A file that lies in no project is dropped. -/
theorem of_dropped (hdue : r.session.queue.isDue file) :
    Effect w u file r { r with session := (r.session.take file).drop file } := by
  have hstate (g : FileId) : ((r.session.take file).queue.remove file).state? g =
      if file = g then none else r.session.queue.state? g := by
    rw [Queue.state?_remove, state?_take hdue]
    split_ifs <;> rfl
  have hcontains (g : FileId) (hg : ((r.session.take file).queue.remove file).contains g) :
      r.session.queue.contains g :=
    Queue.contains_setState _ ▸ Queue.of_contains_remove hg
  exact .unlearnt rfl rfl hcontains (fun g hg => (isDue_of_state? (hstate g) (by simp) hg).1)
    (.inr ⟨rfl, fun hg => (isDue_of_state? (hstate file) (by simp) hg).2 rfl⟩)

theorem of_failure (h : Opened r.session file request opened)
    (hstatus : (LineCompiler.compile request opened).2.status ≠ .success) :
    Effect w u file r
      (({ r with session := opened } : Running Unit τ).call lineCompiler request) := by
  obtain ⟨hsession, hretries⟩ := call_lineCompiler r opened request
  obtain ⟨hevents, -⟩ | ⟨_, _, _, -, -, -, hcompile⟩ := compile_eq request opened
  · rw [hevents] at hsession
    obtain ⟨htree, hcache, hqueue⟩ := settle_of_ne_success (opened.applyAll []) request hstatus
    rw [← hsession] at htree hcache hqueue
    have hstate := h.state?_settled (LineCompiler.compile request opened).2.status
    refine .unlearnt (htree.trans h.tree) (hcache.trans h.cache) (fun g hg => ?_)
      (fun g hg => ?_) ?_
    · rw [hqueue] at hg
      exact h.contains_of_settled hg
    · rw [hqueue] at hg
      by_cases heq : file = g
      · exact heq ▸ h.due
      · exact Queue.isDue_congr ((hstate g).trans (if_neg heq)) ▸ hg
    · rw [hretries, hqueue]
      rcases hanswer : (LineCompiler.compile request opened).2.status with _ | _ | _
      · exact absurd hanswer hstatus
      · exact .inl rfl
      · refine .inr ⟨rfl, fun hg => ?_⟩
        rw [hanswer] at hstate
        exact (isDue_of_state? (hstate file) (by simp [CompileStatus.leaves]) hg).2 rfl
  · rw [hcompile] at hstatus
    exact absurd rfl hstatus

theorem of_success (h : Opened r.session file request opened)
    (hgrows : w.Grows r.session.workspace) (hnumber : ∃ path, w.files.path? file = some path)
    (hread : opened.tree.readText request.path = u.readText request.path)
    (hstatus : (LineCompiler.compile request opened).2.status = .success) :
    Effect w u file r
      (({ r with session := opened } : Running Unit τ).call lineCompiler request) := by
  obtain ⟨hsession, hretries⟩ := call_lineCompiler r opened request
  obtain ⟨written, artifacts, hproduct, hwritten, htree, hshape, hqueue, hothers⟩ :=
    settle_compile (hgrows.trans h.grows) hread h.contains hstatus
  have hcomplete : opened.queue.complete request.file =
      opened.queue.settled request.file .success := rfl
  rw [← hsession] at htree hshape hqueue hothers
  rw [h.tree] at htree hshape
  rw [hcomplete, h.cache] at hqueue
  rw [h.cache] at hothers
  rw [h.requested] at hshape hothers
  refine .learnt (h.productOf? hgrows hnumber hproduct) hwritten htree hshape hothers ?_
    (fun g hg => ?_) fun hsame g hg => ?_
  · rw [hretries, hstatus]
    rfl
  · rw [hqueue, h.requested] at hg
    rcases Queue.of_contains_enqueueAll hg with hmem | hold
    · split_ifs at hmem
      · cases hmem
      · exact .inr hmem
    · exact .inl (h.contains_of_settled (h.requested.symm ▸ hold))
  · rw [hqueue, if_pos (h.requested.symm ▸ hsame.symm)] at hg
    exact isDue_of_state? (h.state?_settled .success g) (by simp [CompileStatus.leaves]) hg

end Effect

theorem compileFile_effect {r r' : Running Unit τ} {file : FileId}
    (hgrows : w.Grows r.session.workspace) (hnumber : ∃ path, w.files.path? file = some path)
    (hdue : r.session.queue.isDue file)
    (h : ({ r with session := r.session.take file } : Running Unit τ).compileFile lineCompiler
      file = .ok r')
    (hreads : ∀ m ∈ ({ r with session := r.session.take file } : Running Unit τ).compileMoments
      lineCompiler file, m.ReadsAs u) : Effect w u file r r' := by
  unfold Running.compileFile at h
  unfold Running.compileMoments at hreads
  rcases hrequest : (r.session.take file).request file with e | _ | ⟨request, opened⟩
  · rw [hrequest] at h
    cases h
  · rw [hrequest] at h
    cases h
    exact .of_dropped hdue
  · simp only [hrequest] at h hreads
    cases h
    have hopened : Opened r.session file request opened := .of_request hdue hrequest
    have hread : opened.tree.readText request.path = u.readText request.path := by
      rw [hopened.tree]
      exact hreads _ (List.mem_cons_self ..) request rfl
    by_cases hstatus : (LineCompiler.compile request opened).2.status = .success
    · exact .of_success hopened hgrows hnumber hread hstatus
    · exact .of_failure hopened hstatus

/-! ## Nearer to the end -/

/-- A build on its way whose work is bounded: all files that can be queued are among the given
ones. -/
structure Ready (w : Workspace) (files : Finset FileId) (options : Options)
    (r : Running Unit τ) : Prop where
  going : Running.Going options r
  sane : r.Sane
  orderly : Orderly .building r.session
  grows : w.Grows r.session.workspace
  proper : r.session.tree.Proper
  queued : ∀ g, r.session.queue.contains g → g ∈ files
  depending : ∀ g d, d ∈ r.session.cache.dependencies g → g ∈ files

namespace Effect

variable {file : FileId} {r r' : Running Unit τ}

theorem queued (h : Effect w u file r r') (hr : Ready w files options r) (hfile : file ∈ files)
    (hconsistent : r'.session.cache.Consistent) :
    (∀ g, r'.session.queue.contains g → g ∈ files) ∧
      ∀ g d, d ∈ r'.session.cache.dependencies g → g ∈ files := by
  cases h with
  | unlearnt _ hcache hcontains =>
    refine ⟨fun g hg => hr.queued g (hcontains g hg), fun g d hd => ?_⟩
    rw [hcache] at hd
    exact hr.depending g d hd
  | learnt _ _ _ _ hothers _ hcontains =>
    have hdepending (g d : FileId) (hd : d ∈ r'.session.cache.dependencies g) : g ∈ files := by
      by_cases hg : g = file
      · exact hg ▸ hfile
      · exact hr.depending g d ((hothers g hg).2 ▸ hd)
    refine ⟨fun g hg => ?_, hdepending⟩
    rcases hcontains g hg with hold | hnew
    · exact hr.queued g hold
    · exact hdepending g file ((hconsistent.symmetric g file).mp hnew)

theorem card_filter_lt {α : Type} {s : Finset α} {P Q : α → Prop} [DecidablePred P]
    [DecidablePred Q] (h : ∀ b ∈ s, P b → Q b) {a : α} (ha : a ∈ s) (hQ : Q a) (hP : ¬ P a) :
    (s.filter P).card < (s.filter Q).card := by
  refine Finset.card_lt_card
    ((Finset.ssubset_iff_of_subset (Finset.monotone_filter_right s h)).mpr ?_)
  exact ⟨a, Finset.mem_filter.mpr ⟨ha, hQ⟩, fun hmem => hP (Finset.mem_filter.mp hmem).2⟩

/-- A file is stable once it was compiled without any directory being made. -/
theorem stable_of_shown {s s' : Session τ} {source : Path} {written : List (Path × Content)}
    {artifacts : List Path} (hproduct : productOf? w u file = some (source, written, artifacts))
    (hwritten : ∀ p ∈ artifacts, ∃ f ∈ written, f.1 = p) (hproper : s.tree.Proper)
    (hsame : s.tree.SameDirectories (s.tree.writeAll written))
    (hdirectories : s.tree.SameDirectories s'.tree)
    (hshape : (s'.cache.record file).shape = shownShape w s.tree source written artifacts) :
    Stable w u s' file := by
  intro source' written' artifacts' hproduct' t ht htsame htkeep
  rw [hproduct] at hproduct'
  cases hproduct'
  rw [hshape]
  exact shownShape_eq w hproper ht (hdirectories.trans htsame) source hsame htkeep hwritten

/-- Compiling a file that is due brings the build nearer to its end. -/
theorem descends (h : Effect w u file r r') (hr : Ready w files options r)
    (hr' : r'.retries < options.retryLimit) (hfile : file ∈ files)
    (hdue : r.session.queue.isDue file) :
    workLeft w u files options r' < workLeft w u files options r := by
  classical
  unfold workLeft
  cases h with
  | unlearnt htree hcache _ hfewer hprogress =>
    have hstable (g : FileId) : Stable w u r'.session g ↔ Stable w u r.session g :=
      stable_congr (htree ▸ FileTree.SameDirectories.refl _) (by rw [hcache])
    simp only [htree, hstable, Prod.Lex.toLex_lt_toLex, lt_irrefl, false_or, true_and]
    rcases hprogress with hretries | ⟨hretries, hdone⟩
    · exact .inl (by omega)
    · exact .inr ⟨by rw [hretries], card_filter_lt (fun g _ => hfewer g) hfile hdue hdone⟩
  | @learnt source written artifacts hproduct hwritten htree hshape hothers hretries _ hfewer =>
    obtain ⟨hdeleted, -, -⟩ := FileTree.foldl_deleteFile_spec (hr.proper.writeAll written)
      (w.staleArtifacts (r.session.tree.writeAll written) source artifacts)
    have hkept : (r.session.tree.writeAll written).SameDirectories r'.session.tree :=
      htree ▸ hdeleted
    have hless (q : List String) (hq : ¬ r'.session.tree.isDirectoryAt q) :
        ¬ r.session.tree.isDirectoryAt q := fun hold =>
      hq (hkept q ▸ FileTree.isDirectoryAt_writeAll hr.proper written hold)
    by_cases hsame : r.session.tree.SameDirectories (r.session.tree.writeAll written)
    · -- No directory was made, and so the file has become stable.
      have hdirectories := hsame.trans hkept
      have hstable : Stable w u r'.session file :=
        stable_of_shown hproduct hwritten hr.proper hsame hdirectories hshape
      have hstays (g : FileId) (hg : ¬ Stable w u r'.session g) : ¬ Stable w u r.session g := by
        have hne : g ≠ file := fun hne => hg (hne ▸ hstable)
        rwa [stable_congr hdirectories (hothers g hne).1] at hg
      have hfirst : ((madeFor w u files).filter fun q => ¬ r'.session.tree.isDirectoryAt q) =
          (madeFor w u files).filter fun q => ¬ r.session.tree.isDirectoryAt q :=
        Finset.filter_congr fun q _ => by rw [hdirectories q]
      rw [hfirst]
      refine Prod.Lex.toLex_lt_toLex.mpr (.inr ⟨rfl, Prod.Lex.toLex_lt_toLex.mpr ?_⟩)
      by_cases hshown :
          (r'.session.cache.record file).shape = (r.session.cache.record file).shape
      · have hunstable := Finset.card_le_card
          (Finset.monotone_filter_right files fun g _ => hstays g)
        obtain hlt | heq := hunstable.lt_or_eq
        · exact .inl hlt
        · refine .inr ⟨heq, Prod.Lex.toLex_lt_toLex.mpr (.inr ⟨by rw [hretries], ?_⟩)⟩
          exact card_filter_lt (fun g _ hg => (hfewer hshown g hg).1) hfile hdue
            fun hg => (hfewer hshown file hg).2 rfl
      · have hunstable : ¬ Stable w u r.session file := fun hold => by
          refine hshown (hshape.trans (Eq.symm ?_))
          exact hold source written artifacts hproduct _ hr.proper
            (FileTree.SameDirectories.refl _) hsame
        exact .inl (card_filter_lt (fun g _ => hstays g) hfile hunstable (not_not.mpr hstable))
    · -- Some directory was made, which was still to be made.
      obtain ⟨q, hq, hnew, hplace⟩ := FileTree.exists_made_of_not_same hr.proper hsame
      have hmade : q ∈ madeFor w u files := mem_madeFor hfile hproduct hplace
      refine Prod.Lex.toLex_lt_toLex.mpr (.inl ?_)
      exact card_filter_lt (fun q _ => hless q) hmade hq (not_not.mpr (hkept q ▸ hnew))

end Effect

end Rebuild.Build
