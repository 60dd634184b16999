import Mathlib
import Rebuild.Proofs.Dependency.Consistency

/-! Updates of a file from its artifacts. Main statement: the edges of the file are those that its
artifacts ask for, whatever was known before, and no other file loses or gains an edge. -/
namespace Rebuild.Dependency

/-- The answers of a source map that is asked for some types one after the other. -/
def answers {ω : Type} (sources : SourceMap ω) : List String → ω → List (String × Option FileId)
  | [], _ => []
  | name :: rest, w =>
    let (answer, w) := (sources name).run w
    (name, answer) :: answers sources rest w

/-- A source map without a state answers each name as a function does. -/
theorem mem_answers_pure {ω : Type} (find : String → Option FileId) (names : List String) (w : ω)
    {name : String} {answer : Option FileId} :
    (name, answer) ∈ answers (fun name => pure (find name)) names w ↔
      name ∈ names ∧ find name = answer := by
  induction names with
  | nil => simp [answers]
  | cons first rest ih =>
    change (name, answer) ∈ (first, find first) :: answers _ rest w ↔ _
    rw [List.mem_cons, ih, List.mem_cons, Prod.mk.injEq]
    constructor
    · rintro (⟨rfl, rfl⟩ | ⟨h, rfl⟩)
      · exact ⟨Or.inl rfl, rfl⟩
      · exact ⟨Or.inr h, rfl⟩
    · rintro ⟨rfl | h, rfl⟩
      · exact Or.inl ⟨rfl, rfl⟩
      · exact Or.inr ⟨h, rfl⟩

namespace Cache

variable {φ τ ω : Type}

/-! ## Targets -/

theorem mem_rootTypes (prefixes : List String) (referenced : DeclarationSet) {id : String} :
    id ∈ rootTypes prefixes referenced ↔
      ∃ d ∈ referenced.toList, d.isType ∧
        ∃ root, d.rootType? = some root ∧ root.id = id ∧ ¬ Name.isSystem prefixes id := by
  unfold rootTypes
  rw [List.mem_filter, DeclarationSet.mem_ids_insertAll, List.mem_map]
  constructor
  · rintro ⟨⟨root, hroot, rfl⟩ | h, hsystem⟩
    · obtain ⟨d, hd, hr⟩ := List.mem_filterMap.mp hroot
      obtain ⟨hd, htype⟩ := List.mem_filter.mp hd
      exact ⟨d, hd, htype, root, hr, rfl, by simpa using hsystem⟩
    · cases h
  · rintro ⟨d, hd, htype, root, hr, rfl, hsystem⟩
    refine ⟨Or.inl ⟨root, List.mem_filterMap.mpr ⟨d, ?_, hr⟩, rfl⟩, by simpa using hsystem⟩
    exact List.mem_filter.mpr ⟨hd, htype⟩

theorem nodup_rootTypes (prefixes : List String) (referenced : DeclarationSet) :
    (rootTypes prefixes referenced).Nodup :=
  (DeclarationSet.nodup_ids_insertAll (s := {}) .nil _).filter _

theorem mem_targetsIn (sources : SourceMap ω) (names : List String) (w : ω) {target : FileId} :
    target ∈ ((targetsIn sources names).run w).1 ↔
      ∃ name, (name, some target) ∈ answers sources names w := by
  induction names generalizing w with
  | nil => simp [targetsIn, answers, pure, StateT.pure, StateT.run]
  | cons first rest ih =>
    change target ∈ ((sources first).run w).1.toList ++
      ((targetsIn sources rest).run ((sources first).run w).2).1 ↔ ∃ name, (name, some target) ∈
        (first, ((sources first).run w).1) :: answers sources rest ((sources first).run w).2
    rw [List.mem_append, ih, Option.mem_toList]
    simp only [List.mem_cons, Prod.mk.injEq, exists_or]
    constructor
    · rintro (h | h)
      · exact Or.inl ⟨first, rfl, h.symm⟩
      · exact Or.inr h
    · rintro (⟨_, _, h⟩ | h)
      · exact Or.inl h.symm
      · exact Or.inr h

theorem mem_foundTargets (source : Finder φ) (read : Path → Option (List UInt8))
    (sources : SourceMap ω) (file : FileId) (artifacts : List Path) (c : Cache φ τ) (w : ω)
    {target : FileId} :
    target ∈ c.foundTargets source read sources file artifacts w ↔
      target ≠ file ∧ ∃ name, (name, some target) ∈ answers sources
        (rootTypes c.systemPrefixes (c.findings source read artifacts).referenced) w := by
  rw [foundTargets_eq, Ascending.mem_ofList, List.mem_filter, mem_targetsIn, decide_eq_true_eq]
  exact And.comm

theorem isSet_foundTargets (source : Finder φ) (read : Path → Option (List UInt8))
    (sources : SourceMap ω) (file : FileId) (artifacts : List Path) (c : Cache φ τ) (w : ω) :
    Ascending.IsSet (c.foundTargets source read sources file artifacts w) := by
  rw [foundTargets_eq]
  exact Ascending.isSet_ofList _

/-! ## What an update records -/

variable (c : Cache φ τ) (file : FileId) (found : Findings) (targets : FileSet)

theorem bare_absorb : ((c.absorb file found targets).2.record file).bare =
    ((c.record file).compiled found).bare := by
  have hbare := bare_relink (c.modifyRecord file fun r => r.compiled found) file targets file
  rwa [record_modifyRecord, if_pos rfl] at hbare

theorem record_absorb :
    ((c.absorb file found targets).2.record file).shape = found.shape ∧
      ((c.absorb file found targets).2.record file).referenced = found.referenced := by
  have hbare := bare_absorb c file found targets
  exact ⟨congrArg Record.shape hbare, congrArg Record.referenced hbare⟩

theorem bare_absorb_of_ne {g : FileId} (h : g ≠ file) :
    ((c.absorb file found targets).2.record g).bare = (c.record g).bare := by
  have hbare := bare_relink (c.modifyRecord file fun r => r.compiled found) file targets g
  rwa [record_modifyRecord, if_neg h.symm] at hbare

theorem mem_dependencies_absorb {target : FileId} :
    target ∈ (c.absorb file found targets).2.dependencies file ↔ target ∈ targets :=
  mem_dependencies_relink _ file targets

theorem dependencies_absorb_of_ne {g : FileId} (h : g ≠ file) :
    (c.absorb file found targets).2.dependencies g = c.dependencies g := by
  change (relink _ file targets).dependencies g = _
  rw [dependencies_relink_of_ne _ targets h]
  exact dependencies_modifyRecord c file g (f := fun r => r.compiled found) fun _ => rfl

theorem mem_dependents_absorb_of_ne {a : FileId} (h : a ≠ file) (g : FileId) :
    a ∈ (c.absorb file found targets).2.dependents g ↔ a ∈ c.dependents g := by
  change a ∈ (relink _ file targets).dependents g ↔ _
  rw [mem_dependents_relink_of_ne _ targets h g]
  rw [dependents_modifyRecord c file g (f := fun r => r.compiled found) fun _ => rfl]

variable {c file found targets}

/-- Sets are compared as ascending lists. -/
theorem referencesChanged_absorb (h : c.Consistent) (ht : Ascending.IsSet targets) :
    (c.absorb file found targets).1.referencesChanged ↔
      (¬ ∀ id, id ∈ found.referenced.ids ↔ id ∈ (c.record file).referenced.ids) ∨
        ¬ ∀ target, target ∈ targets ↔ target ∈ c.dependencies file := by
  have hsame : (c.record file).referenced.same found.referenced ↔
      ∀ id, id ∈ found.referenced.ids ↔ id ∈ (c.record file).referenced.ids := by
    rw [DeclarationSet.same_iff]
    exact forall_congr' fun id => Iff.comm
  have hlist : c.dependencies file = targets ↔
      ∀ target, target ∈ targets ↔ target ∈ c.dependencies file := by
    constructor
    · rintro rfl; exact fun target => Iff.rfl
    · exact fun hm => ((ht.ext (h.dependencies_isSet file)) hm).symm
  change (!(c.record file).referenced.same found.referenced ||
    decide (c.dependencies file ≠ targets)) = true ↔ _
  rw [Bool.or_eq_true, Bool.not_eq_true', ← Bool.not_eq_true, decide_eq_true_eq, hsame, ne_eq,
    hlist]

theorem declarationsChanged_absorb (h : c.Consistent) (hs : Ascending.IsSet found.shape) :
    (c.absorb file found targets).1.declarationsChanged ↔
      ¬ ∀ line, line ∈ found.shape ↔ line ∈ (c.record file).shape := by
  change decide ((c.record file).shape ≠ found.shape) = true ↔ _
  rw [decide_eq_true_eq, ne_eq, not_iff_not]
  constructor
  · intro heq line
    rw [heq]
  · exact fun hm => (hs.ext (h.shape_isSet file) hm).symm

/-- The targets found are all that decides on the dependencies of an updated file. -/
theorem dependencies_update (h : c.Consistent) (source : Finder φ)
    (read : Path → Option (List UInt8)) (sources : SourceMap ω) (file : FileId)
    (artifacts : List Path) (w : ω) :
    (c.update source read sources file artifacts w).2.1.dependencies file =
      c.foundTargets source read sources file artifacts w := by
  have hafter := h.update source read sources file artifacts w
  refine (hafter.dependencies_isSet file).ext
    (isSet_foundTargets source read sources file artifacts c w) fun target => ?_
  obtain ⟨table, -, hc⟩ := update_eq source read sources file artifacts c w
  rw [hc]
  exact mem_dependencies_absorb _ _ _ _

/-! ## Runs -/

theorem dependencies_update_of_ne (source : Finder φ) (read : Path → Option (List UInt8))
    (sources : SourceMap ω) (file : FileId) (artifacts : List Path) (c : Cache φ τ) (w : ω)
    {g : FileId} (h : g ≠ file) :
    (c.update source read sources file artifacts w).2.1.dependencies g = c.dependencies g := by
  obtain ⟨table, -, hc⟩ := update_eq source read sources file artifacts c w
  rw [hc]
  exact dependencies_absorb_of_ne _ _ _ _ h

theorem run_targetsIn_induction {P : ω → Prop} (sources : SourceMap ω) (names : List String)
    {w : ω} (hw : P w) (hstep : ∀ name v, P v → P ((sources name).run v).2) :
    P ((targetsIn sources names).run w).2 := by
  induction names generalizing w with
  | nil => exact hw
  | cons name rest ih =>
    have hrest := ih (hstep name w hw)
    rw [targetsIn, StateT.run_bind]
    exact hrest

theorem update_world (source : Finder φ) (read : Path → Option (List UInt8))
    (sources : SourceMap ω) (file : FileId) (artifacts : List Path) (c : Cache φ τ) (w : ω) :
    (c.update source read sources file artifacts w).2.2 = ((targetsIn sources
      (rootTypes c.systemPrefixes (c.findings source read artifacts).referenced)).run w).2 := by
  rcases hfound : (survey source read artifacts).run c.table with ⟨found, table⟩
  -- `targets` only puts the answers in order, so the world after it is that after the questions.
  have htargets : ((targets sources file (rootTypes c.systemPrefixes found.referenced)).run w).2 =
      ((targetsIn sources (rootTypes c.systemPrefixes found.referenced)).run w).2 := by
    rw [targets, StateT.run_bind]
    rfl
  simp only [update, findings, hfound]
  exact htargets

/-- An update changes the world of the source map only by asking it. -/
theorem update_world_induction {P : ω → Prop} (source : Finder φ)
    (read : Path → Option (List UInt8)) (sources : SourceMap ω) (file : FileId)
    (artifacts : List Path) (c : Cache φ τ) {w : ω} (hw : P w)
    (hstep : ∀ name v, P v → P ((sources name).run v).2) :
    P (c.update source read sources file artifacts w).2.2 := by
  rw [update_world]
  exact run_targetsIn_induction sources _ hw hstep

/-! ## What stays as it is -/

/-- Taking edges away changes no record in anything else. -/
theorem bare_unlinkAll (c : Cache φ τ) (edges : List (FileId × FileId)) (g : FileId) :
    ((c.unlinkAll edges).record g).bare = (c.record g).bare :=
  unlinkAll_induction (P := fun d => (d.record g).bare = (c.record g).bare) edges rfl
    fun d e _ hd => (bare_unlink d e.1 e.2 g).trans hd

theorem bare_clearFile (c : Cache φ τ) (g file : FileId) : ((c.clearFile g).record file).bare =
    if g = file ∧ (c.records.get? g).isSome then (c.record g).cleared.bare
    else (c.record file).bare := by
  unfold clearFile
  split
  next hnone => simp [hnone]
  next r hr =>
    rw [bare_unlinkAll, bare_unlinkAll, record_modifyRecord]
    simp only [hr, Option.isSome_some, and_true]
    split_ifs <;> rfl

theorem bare_removeFile_of_ne (c : Cache φ τ) {g file : FileId} (hne : g ≠ file) :
    ((c.removeFile g).record file).bare = (c.record file).bare := by
  rw [record_removeFile, if_neg hne, bare_clearFile, if_neg fun h => hne h.1]

/-- What a file refers to and depends on is the same in both caches. -/
structure SameReferences (file : FileId) (c c' : Cache φ τ) : Prop where
  referenced : (c'.record file).referenced = (c.record file).referenced
  dependencies : c'.dependencies file = c.dependencies file

namespace SameReferences

variable {file g : FileId} {c c' c'' : Cache φ τ}

theorem refl (file : FileId) (c : Cache φ τ) : SameReferences file c c := ⟨rfl, rfl⟩

theorem trans (h : SameReferences file c c') (h' : SameReferences file c' c'') :
    SameReferences file c c'' :=
  ⟨h'.referenced.trans h.referenced, h'.dependencies.trans h.dependencies⟩

theorem withTable (file : FileId) (c : Cache φ τ) (table : Table φ) :
    SameReferences file c { c with table } := ⟨rfl, rfl⟩

theorem markStale (file g : FileId) (c : Cache φ τ) : SameReferences file c (c.markStale g) := by
  refine ⟨?_, dependencies_modifyRecord c g file fun _ => rfl⟩
  rw [Cache.markStale, record_modifyRecord]
  split_ifs with hg
  · rw [hg]
  · rfl

/-- A file that goes is forgotten by those that depend on it only. -/
theorem removeFile (h : c.Consistent) (hne : g ≠ file) (hg : g ∉ c.dependencies file) :
    SameReferences file c (c.removeFile g) := by
  refine ⟨?_, ?_⟩
  · have hreferenced := congrArg Record.referenced (bare_removeFile_of_ne c hne)
    exact hreferenced
  · refine ((h.removeFile g).dependencies_isSet file).ext (h.dependencies_isSet file) fun b => ?_
    refine ⟨of_mem_dependencies_removeFile, fun hb => ?_⟩
    rw [(mem_edges_removeFile c g file b).1]
    unfold clearFile
    split
    next => exact hb
    next r hr =>
      have hsame := dependencies_modifyRecord c g file (f := Record.cleared) fun _ => rfl
      rw [mem_dependencies_unlinkAll, mem_dependencies_unlinkAll, hsame]
      have hbg : b ≠ g := fun hbg => hg (hbg ▸ hb)
      simp [hb, hbg.symm, hne]

theorem update (source : Finder φ) (read : Path → Option (List UInt8)) (sources : SourceMap ω)
    (artifacts : List Path) (c : Cache φ τ) (w : ω) (hne : file ≠ g) :
    SameReferences file c (c.update source read sources g artifacts w).2.1 := by
  obtain ⟨table, -, hc⟩ := update_eq source read sources g artifacts c w
  refine ⟨?_, dependencies_update_of_ne source read sources g artifacts c w hne⟩
  rw [hc]
  have hbare := bare_absorb_of_ne { c with table } g (c.findings source read artifacts)
    (c.foundTargets source read sources g artifacts w) hne
  have hreferenced := congrArg Record.referenced hbare
  exact hreferenced

end SameReferences

/-! ## Files without a record -/

/-- There is no record of the file. -/
def Unknown (file : FileId) (c : Cache φ τ) : Prop := c.records.get? file = none

namespace Unknown

variable {file g : FileId} {c : Cache φ τ}

/-- A record that is made is that of another file. -/
theorem modifyRecord (h : Unknown file c) (hg : g ≠ file) (f : Record τ → Record τ) :
    Unknown file (c.modifyRecord g f) := by
  unfold Unknown Cache.modifyRecord at *
  rw [Dict.get?_put, if_neg hg, h]

theorem link (h : Unknown file c) {source target : FileId} (hs : source ≠ file)
    (ht : target ≠ file) : Unknown file (c.link source target) :=
  (h.modifyRecord hs _).modifyRecord ht _

theorem unlink (h : Unknown file c) {source target : FileId} (hs : source ≠ file)
    (ht : target ≠ file) : Unknown file (c.unlink source target) :=
  (h.modifyRecord hs _).modifyRecord ht _

theorem withTable (h : Unknown file c) (table : Table φ) : Unknown file { c with table } := h

/-- No edge leads from or to the file. -/
theorem no_edges (h : Unknown file c) (hc : c.Consistent) (g : FileId) :
    g ∉ c.dependencies file ∧ g ∉ c.dependents file ∧
      file ∉ c.dependencies g ∧ file ∉ c.dependents g := by
  have hrecord : c.record file = {} := by
    unfold Unknown at h
    rw [record, h]
    rfl
  have hto : g ∉ c.dependencies file := by simp [dependencies, hrecord]
  have hfrom : g ∉ c.dependents file := by simp [dependents, hrecord]
  refine ⟨hto, hfrom, fun hmem => hfrom ?_, fun hmem => hto ?_⟩
  · exact (hc.symmetric g file).mpr hmem
  · exact (hc.symmetric file g).mp hmem

theorem removeFile_self (file : FileId) (c : Cache φ τ) : Unknown file (c.removeFile file) := by
  unfold Unknown Cache.removeFile
  rw [Dict.get?_erase, if_pos rfl]

/-- The removal of another file changes the records of files with an edge to it only. -/
theorem removeFile (h : Unknown file c) (hc : c.Consistent) (g : FileId) :
    Unknown file (c.removeFile g) := by
  by_cases hg : g = file
  · exact hg ▸ removeFile_self g c
  obtain ⟨-, -, hdependency, hdependent⟩ := h.no_edges hc g
  suffices hcleared : Unknown file (c.clearFile g) by
    unfold Unknown Cache.removeFile
    rw [Dict.get?_erase, if_neg hg]
    exact hcleared
  unfold clearFile
  split
  next => exact h
  next r hr =>
    have hrecord : c.record g = r := by simp [record, hr]
    have hends (e : FileId × FileId)
        (he : e ∈ r.dependencies.map (fun target => (g, target)) ∨
          e ∈ r.dependents.map fun source => (source, g)) : e.1 ≠ file ∧ e.2 ≠ file := by
      rcases he with he | he
      · obtain ⟨target, htarget, rfl⟩ := List.mem_map.mp he
        refine ⟨hg, ?_⟩
        rintro rfl
        exact hdependency (by rwa [dependencies, hrecord])
      · obtain ⟨source, hsource, rfl⟩ := List.mem_map.mp he
        refine ⟨?_, hg⟩
        rintro rfl
        exact hdependent (by rwa [dependents, hrecord])
    refine unlinkAll_induction (P := Unknown file) _ ?_
      fun d e he hd => hd.unlink (hends e (.inr he)).1 (hends e (.inr he)).2
    exact unlinkAll_induction (P := Unknown file) _ (h.modifyRecord hg _)
      fun d e he hd => hd.unlink (hends e (.inl he)).1 (hends e (.inl he)).2

theorem absorb (h : Unknown file c) (hc : c.Consistent) (hg : g ≠ file) (found : Findings)
    {targets : FileSet} (htargets : file ∉ targets) :
    Unknown file (c.absorb g found targets).2 := by
  have hold : file ∉ (c.modifyRecord g fun r => r.compiled found).dependencies g := by
    rw [dependencies_modifyRecord c g g (f := fun r => r.compiled found) fun _ => rfl]
    exact (h.no_edges hc g).2.2.1
  have hends {files other : FileSet} (hfiles : file ∉ files) (e : FileId × FileId)
      (he : e ∈ (Ascending.difference files other).map fun target => (g, target)) :
      e.1 ≠ file ∧ e.2 ≠ file := by
    obtain ⟨target, htarget, rfl⟩ := List.mem_map.mp he
    refine ⟨hg, ?_⟩
    rintro rfl
    exact hfiles (Ascending.mem_difference.mp htarget).1
  refine unlinkAll_induction (P := Unknown file) _ ?_
    fun d e he hd => hd.unlink (hends hold e he).1 (hends hold e he).2
  exact linkAll_induction (P := Unknown file) _ (h.modifyRecord hg _)
    fun d e he hd => hd.link (hends htargets e he).1 (hends htargets e he).2

theorem update (h : Unknown file c) (hc : c.Consistent) (hg : g ≠ file) (source : Finder φ)
    (read : Path → Option (List UInt8)) (sources : SourceMap ω) (artifacts : List Path) (w : ω)
    (htargets : file ∉ c.foundTargets source read sources g artifacts w) :
    Unknown file (c.update source read sources g artifacts w).2.1 := by
  obtain ⟨table, -, hupdate⟩ := update_eq source read sources g artifacts c w
  rw [hupdate]
  exact (h.withTable table).absorb (hc.withTable table) hg _ htargets

end Unknown

/-! ## Prefixes -/

theorem systemPrefixes_linkAll (c : Cache φ τ) (edges : List (FileId × FileId)) :
    (c.linkAll edges).systemPrefixes = c.systemPrefixes :=
  linkAll_induction (P := fun d => d.systemPrefixes = c.systemPrefixes) edges rfl
    fun _ _ _ hd => hd

theorem systemPrefixes_unlinkAll (c : Cache φ τ) (edges : List (FileId × FileId)) :
    (c.unlinkAll edges).systemPrefixes = c.systemPrefixes :=
  unlinkAll_induction (P := fun d => d.systemPrefixes = c.systemPrefixes) edges rfl
    fun _ _ _ hd => hd

theorem systemPrefixes_absorb (c : Cache φ τ) (file : FileId) (found : Findings)
    (targets : FileSet) :
    (c.absorb file found targets).2.systemPrefixes = c.systemPrefixes := by
  simp only [absorb, relink, systemPrefixes_unlinkAll, systemPrefixes_linkAll]
  rfl

theorem systemPrefixes_clearFile (c : Cache φ τ) (file : FileId) :
    (c.clearFile file).systemPrefixes = c.systemPrefixes := by
  unfold clearFile
  split
  · rfl
  · rw [systemPrefixes_unlinkAll, systemPrefixes_unlinkAll]
    rfl

theorem systemPrefixes_after (c : Cache φ τ) (call : Call φ τ) :
    (c.after call).systemPrefixes = c.systemPrefixes := by
  cases call with
  | update source read sources file artifacts world =>
    obtain ⟨table, -, hc⟩ := update_eq source read sources file artifacts c world
    rw [after, hc, systemPrefixes_absorb]
  | clearFile file => exact systemPrefixes_clearFile c file
  | removeFile file => exact systemPrefixes_clearFile c file
  | clear | markStale file | setTree file tree | setTable table => rfl

theorem systemPrefixes_run (c : Cache φ τ) (calls : List (Call φ τ)) :
    (c.run calls).systemPrefixes = c.systemPrefixes := by
  induction calls generalizing c with
  | nil => rfl
  | cons call rest ih =>
    change ((c.after call).run rest).systemPrefixes = _
    rw [ih, systemPrefixes_after]

/-- The edges of an updated file depend on what its artifacts show, on the table and on the source
map, and not on what the cache knew of the file or of any other. -/
theorem dependencies_update_congr {c d : Cache φ τ} (hc : c.Consistent) (hd : d.Consistent)
    (htable : d.table = c.table) (hprefixes : d.systemPrefixes = c.systemPrefixes)
    (source : Finder φ) (read : Path → Option (List UInt8)) (sources : SourceMap ω)
    (file : FileId) (artifacts : List Path) (w : ω) :
    (d.update source read sources file artifacts w).2.1.dependencies file =
      (c.update source read sources file artifacts w).2.1.dependencies file := by
  rw [dependencies_update hd, dependencies_update hc]
  unfold foundTargets findings
  rw [htable, hprefixes]

/-- An update records the references and the shape that the artifacts show. Then the dependencies of
the file are the answers, other than the file itself, that the source map gives for the outermost
types of the types referred to, the system's left out. Other files keep their dependencies, and at
most the file itself joins or leaves their dependents. What is reported as changed did change. The
edges are the same after any other calls that left the table in the same state. -/
theorem update_reconciles (table : Table φ) (prefixes : List String) (calls : List (Call φ τ))
    (source : Finder φ) (read : Path → Option (List UInt8)) (sources : SourceMap ω)
    (file : FileId) (artifacts : List Path) (w : ω) :
    let c : Cache φ τ := (new table prefixes).run calls
    let result := c.update source read sources file artifacts w
    let c' := result.2.1
    let referenced := (c'.record file).referenced
    (referenced = (c.findings source read artifacts).referenced ∧
      (c'.record file).shape = shape (loadArtifacts read artifacts)) ∧
    (∃ names : List String, names.Nodup ∧
      (∀ id, id ∈ names ↔ ∃ d ∈ referenced.toList, d.isType ∧
        ∃ root, d.rootType? = some root ∧ root.id = id ∧ ¬ Name.isSystem prefixes id) ∧
      ∀ target, target ∈ c'.dependencies file ↔
        target ≠ file ∧ ∃ name, (name, some target) ∈ answers sources names w) ∧
    (∀ g, g ≠ file → c'.dependencies g = c.dependencies g ∧
      ∀ a, a ≠ file → (a ∈ c'.dependents g ↔ a ∈ c.dependents g)) ∧
    (result.1.referencesChanged ↔
      (¬ ∀ id, id ∈ referenced.ids ↔ id ∈ (c.record file).referenced.ids) ∨
        ¬ ∀ target, target ∈ c'.dependencies file ↔ target ∈ c.dependencies file) ∧
    (result.1.declarationsChanged ↔
      ¬ ∀ line, line ∈ (c'.record file).shape ↔ line ∈ (c.record file).shape) ∧
    ∀ calls', let d : Cache φ τ := (new table prefixes).run calls'
      (({ d with table := c.table } : Cache φ τ).update source read sources file artifacts
        w).2.1.dependencies file = c'.dependencies file := by
  intro c result c' referenced
  have hc : c.Consistent := run_consistent table prefixes calls
  have hprefixes : c.systemPrefixes = prefixes := systemPrefixes_run _ calls
  obtain ⟨t, hupdate, hcache⟩ := update_eq source read sources file artifacts c w
  change c' = _ at hcache
  have hct : ({ c with table := t } : Cache φ τ).Consistent := hc.withTable t
  obtain ⟨hshape, hreferenced⟩ :
      (c'.record file).shape = (c.findings source read artifacts).shape ∧
        referenced = (c.findings source read artifacts).referenced := by
    simp only [referenced, hcache]
    exact record_absorb _ file _ _
  have hshown := shape_findings source read artifacts c
  have hdependencies : c'.dependencies file =
      c.foundTargets source read sources file artifacts w :=
    dependencies_update hc source read sources file artifacts w
  refine ⟨⟨hreferenced, hshape.trans hshown⟩,
    ⟨rootTypes prefixes referenced, nodup_rootTypes prefixes referenced,
      fun id => mem_rootTypes prefixes referenced, fun target => ?_⟩,
    fun g hg => ⟨?_, fun a ha => ?_⟩, ?_, ?_, ?_⟩
  · rw [hdependencies, mem_foundTargets, hprefixes, hreferenced]
  · rw [hcache]
    exact dependencies_absorb_of_ne _ _ _ _ hg
  · rw [hcache]
    exact mem_dependents_absorb_of_ne _ _ _ _ ha g
  · rw [hdependencies, hreferenced, hupdate]
    exact referencesChanged_absorb hct (isSet_foundTargets source read sources file artifacts c w)
  · rw [hshape, hupdate]
    refine declarationsChanged_absorb hct ?_
    rw [hshown]
    exact Ascending.isSet_ofList _
  · intro calls' d
    have hd : d.Consistent := run_consistent table prefixes calls'
    have hd' : d.systemPrefixes = prefixes := systemPrefixes_run _ calls'
    exact dependencies_update_congr hc (hd.withTable c.table) rfl (hd'.trans hprefixes.symm) source
      read sources file artifacts w

end Cache

end Rebuild.Dependency
