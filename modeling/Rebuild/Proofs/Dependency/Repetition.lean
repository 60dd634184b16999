import Mathlib
import Rebuild.Proofs.Declaration.Repetition
import Rebuild.Proofs.Dependency.Update
import Rebuild.Proofs.Workspace.Growth

/-! Updates of a file that are made again. Main statement: while artifacts and sources stay as they
are, a second update reports no change and leaves all records as the first one left them, though it
looks all types of the file up afresh. -/
namespace Rebuild

theorem Dict.put_of_get? {κ α : Type} [DecidableEq κ] {d : Dict κ α} {k : κ} {a : α}
    (h : d.get? k = some a) : d.put k a = d := by
  obtain ⟨entries⟩ := d
  simp only [get?, put, mk.injEq] at h ⊢
  induction entries with
  | nil => cases h
  | cons e rest ih =>
    obtain ⟨l, b⟩ := e
    by_cases hk : l = k <;> simp_all [find, putEntries]

namespace Dependency

open Artifact (ClassFile Member)
open Table (Lasting)

variable {φ τ ω : Type} {source : Finder φ}

/-! ## What artifacts refer to and define -/

theorem gather_lasting {α : Type} {f : α → TableM φ (Option Declaration)} {l : List α}
    (hf : ∀ a ∈ l, Lasting source (f a)) : Lasting source (gather f l) := by
  induction l with
  | nil => exact .pure []
  | cons a rest ih =>
    refine .bind (hf a (by simp)) fun first => ?_
    exact .bind (ih fun b hb => hf b (by simp [hb])) fun others => .pure _

variable (hregular : source.Regular)
include hregular

theorem symbolDeclaration_lasting (r : Artifact.Reference) :
    Lasting source (symbolDeclaration source r) := by
  have hsteady := hregular.steady
  cases r with
  | type name => exact Table.internalType_lasting hsteady name
  | field owner name descriptor =>
    refine .bind (Table.internalType_lasting hsteady owner) fun d => ?_
    cases d with
    | none => exact .pure none
    | some d => exact Table.field_lasting hregular d name
  | method owner name descriptor =>
    rw [symbolDeclaration]
    cases MethodDescriptor.parse descriptor with
    | error e => exact .pure none
    | ok p =>
      refine .bind (Table.internalType_lasting hsteady owner) fun d => ?_
      cases d with
      | none => exact .pure none
      | some d => exact Table.method_lasting hregular d name p.params
  | constructor owner descriptor =>
    rw [symbolDeclaration]
    cases MethodDescriptor.parse descriptor with
    | error e => exact .pure none
    | ok p =>
      refine .bind (Table.internalType_lasting hsteady owner) fun d => ?_
      cases d with
      | none => exact .pure none
      | some d => exact Table.constructor_lasting hregular d p.params

theorem poolDeclarations_lasting (c : ClassFile) : Lasting source (poolDeclarations source c) := by
  unfold poolDeclarations
  split
  · exact .pure []
  · exact gather_lasting fun r _ => symbolDeclaration_lasting hregular r

theorem headDeclarations_lasting (c : ClassFile) (this : Option Declaration) :
    Lasting source (headDeclarations source c this) := by
  have hsteady := hregular.steady
  unfold headDeclarations
  simp only
  split
  · refine .bind (gather_lasting fun type _ => Table.referenceType_lasting hsteady _ type)
      fun bounds => ?_
    exact .bind (gather_lasting fun type _ => Table.classType_lasting hsteady _ type)
      fun supertypes => .pure _
  · exact .bind (gather_lasting fun internal _ => Table.internalType_lasting hsteady internal)
      fun supertypes => .pure _

theorem fieldDeclaration_lasting (scope : TypeScope) (m : Member) :
    Lasting source (fieldDeclaration source scope m) := by
  have hsteady := hregular.steady
  unfold fieldDeclaration
  split <;> split
  · exact Table.referenceType_lasting hsteady _ _
  · exact .pure none
  · exact Table.fieldType_lasting hsteady _
  · exact .pure none

theorem ownDeclaration_lasting (this : Option Declaration) (m : Member) (params : List FieldType) :
    Lasting source (ownDeclaration source this m params) := by
  unfold ownDeclaration
  split
  · exact .pure none
  · split
    · exact Table.constructor_lasting hregular _ _
    · exact Table.method_lasting hregular _ _ _

theorem signatureDeclarations_lasting (own : Option Declaration) (scope : TypeScope)
    (s : MethodSignature) : Lasting source (signatureDeclarations source own scope s) := by
  have hsteady := hregular.steady
  refine .bind (gather_lasting fun type _ => Table.referenceType_lasting hsteady _ type)
    fun bounds => ?_
  refine .bind (gather_lasting fun type _ => Table.valueType_lasting hsteady _ type)
    fun types => ?_
  exact .bind (gather_lasting fun type _ => Table.referenceType_lasting hsteady _ type)
    fun thrown => .pure _

theorem methodDeclarations_lasting (this : Option Declaration) (scope : TypeScope) (m : Member) :
    Lasting source (methodDeclarations source this scope m) := by
  have hsteady := hregular.steady
  unfold methodDeclarations
  split
  · exact .pure []
  split
  · exact .pure []
  refine .bind (gather_lasting fun internal _ => Table.internalType_lasting hsteady internal)
    fun thrown => ?_
  split
  · exact .bind (gather_lasting fun type _ => Table.fieldType_lasting hsteady type)
      fun types => .pure _
  · exact .pure _
  · refine .bind (ownDeclaration_lasting hregular this m _) fun own => ?_
    exact .bind (signatureDeclarations_lasting hregular own scope _) fun types => .pure _

theorem methodsDeclarations_lasting (this : Option Declaration) (scope : TypeScope)
    (methods : List Member) : Lasting source (methodsDeclarations source this scope methods) := by
  induction methods with
  | nil => exact .pure []
  | cons m rest ih =>
    refine .bind (methodDeclarations_lasting hregular this scope m) fun first => ?_
    exact .bind ih fun others => .pure _

theorem references_lasting (c : ClassFile) : Lasting source (references source c) := by
  refine .bind (poolDeclarations_lasting hregular c) fun pool => ?_
  refine .bind ?_ fun structural => .pure _
  refine .bind (Table.type_lasting hregular.steady c.binaryName) fun this => ?_
  refine .bind (headDeclarations_lasting hregular c this) fun head => ?_
  refine .bind (gather_lasting fun m _ => fieldDeclaration_lasting hregular _ m) fun fields => ?_
  exact .bind (methodsDeclarations_lasting hregular this _ c.methods) fun methods => .pure _

theorem definedFields_lasting (owner : Declaration) (fields : List Member) :
    Lasting source (definedFields source owner fields) := by
  induction fields with
  | nil => exact .pure []
  | cons m rest ih =>
    refine .bind (Table.field_lasting hregular owner m.name) fun first => ?_
    exact .bind ih fun others => .pure _

theorem definedMethod_lasting (owner : Declaration) (m : Member) :
    Lasting source (definedMethod source owner m) := by
  unfold definedMethod
  split
  · exact .pure none
  split
  · exact .pure none
  split
  · exact Table.constructor_lasting hregular owner _
  · exact Table.method_lasting hregular owner m.name _

theorem definedMethods_lasting (owner : Declaration) (methods : List Member) :
    Lasting source (definedMethods source owner methods) := by
  induction methods with
  | nil => exact .pure []
  | cons m rest ih =>
    exact .bind (definedMethod_lasting hregular owner m) fun first => .bind ih fun others => .pure _

theorem definedByType_lasting (c : ClassFile) : Lasting source (definedByType source c) := by
  refine .bind (Table.type_lasting hregular.steady c.binaryName) fun owner => ?_
  cases owner with
  | none => exact .pure []
  | some owner =>
    refine .bind (definedFields_lasting hregular owner c.fields) fun fields => ?_
    exact .bind (definedMethods_lasting hregular owner c.methods) fun methods => .pure _

theorem defined_lasting (classes : List ClassFile) : Lasting source (defined source classes) := by
  refine .bind ?_ fun declarations => .pure _
  induction classes with
  | nil => exact .pure []
  | cons c rest ih =>
    exact .bind (definedByType_lasting hregular c) fun first => .bind ih fun others => .pure _

namespace Cache

theorem referencesOfClasses_lasting (found : DeclarationSet) (classes : List ClassFile) :
    Lasting source (referencesOfClasses source found classes) := by
  induction classes generalizing found with
  | nil => exact .pure found
  | cons c rest ih => exact .bind (references_lasting hregular c) fun more => ih _

end Cache

omit hregular

/-! ## Types that are looked up afresh -/

/-- Artifacts that are forgotten though they are up to date are found again. -/
theorem extends_of_forgotten {t : Table φ} {classes : Dict String (Option ClassFile)}
    (h : ∀ b, classes.get? b = t.classes.get? b ∨
      classes.get? b = none ∧ t.Current source b) :
    Table.Extends source t { t with classes } := by
  refine ⟨id, id, fun b => ?_, fun {b} hb known hknown => ?_⟩
  · rcases h b with hsame | ⟨hnone, hcurrent⟩
    · rw [Table.view_eq, Table.view_eq]
      simp only [hsame]
    · rw [hcurrent.view_eq, Table.view_eq]
      simp only [hnone, Option.getD_none]
  · rcases h b with hsame | ⟨hnone, -⟩
    · exact hb known (hsame ▸ hknown)
    · rw [hnone] at hknown
      cases hknown

namespace Cache

/-- What eviction leaves of a table. -/
theorem evictClasses_eq (t : Table φ) (classes : List ClassFile) : ∃ kept,
    evictClasses t classes = { t with classes := kept } ∧
      ∀ b, kept.get? b = if classes.any fun c =>
          Name.isSelfOrNested (Name.root c.binaryName) b then none else t.classes.get? b := by
  induction classes generalizing t with
  | nil => exact ⟨t.classes, rfl, fun b => rfl⟩
  | cons c rest ih =>
    obtain ⟨kept, hkept, hget⟩ := ih (t.evict (Name.root c.binaryName))
    refine ⟨kept, hkept, fun b => ?_⟩
    rw [hget, Table.evict, Dict.get?_filterKeys, List.any_cons]
    by_cases hrest : rest.any fun c => Name.isSelfOrNested (Name.root c.binaryName) b
    · simp [hrest]
    · cases hb : Name.isSelfOrNested (Name.root c.binaryName) b <;> simp [hrest]

/-- What is read of artifacts once their types are evicted. -/
def inspect (source : Finder φ) (classes : List ClassFile) : TableM φ Findings := do
  let definedSet ← defined source classes
  let referenced ← referencesOfClasses source {} classes
  return ⟨definedSet, shape classes, referenced⟩

theorem run_survey (source : Finder φ) (read : Path → Option (List UInt8)) (artifacts : List Path)
    (t : Table φ) : (survey source read artifacts).run t =
      (inspect source (loadArtifacts read artifacts)).run
        (evictClasses t (loadArtifacts read artifacts)) := rfl

theorem inspect_lasting (hregular : source.Regular) (classes : List ClassFile) :
    Lasting source (inspect source classes) := by
  refine .bind (defined_lasting hregular classes) fun definedSet => ?_
  exact .bind (referencesOfClasses_lasting hregular {} classes) fun referenced => .pure _

/-- The same artifacts tell the same, though their types are evicted and loaded once more. -/
theorem survey_again (hregular : source.Regular) (read : Path → Option (List UInt8))
    (artifacts : List Path) (t : Table φ) :
    ((survey source read artifacts).run ((survey source read artifacts).run t).2).1 =
      ((survey source read artifacts).run t).1 := by
  rw [run_survey, run_survey]
  let classes := loadArtifacts read artifacts
  let evicted := evictClasses t classes
  let surveyed := ((inspect source classes).run evicted).2
  have hlasting := inspect_lasting hregular classes
  suffices hkept : Table.Extends source surveyed (evictClasses surveyed classes) from
    hlasting.again (t := evicted) hkept
  obtain ⟨kept, hkept, hget⟩ := evictClasses_eq surveyed classes
  obtain ⟨left, hleft, hnone⟩ := evictClasses_eq t classes
  rw [hkept]
  refine extends_of_forgotten fun b => ?_
  rw [hget]
  split
  next hb =>
    -- The type was evicted before, so all that the table knows of it was loaded since.
    refine .inr ⟨rfl, (hlasting.keeps evicted).current fun known hknown => ?_⟩
    change (evictClasses t classes).classes.get? b = some known at hknown
    rw [hleft] at hknown
    simp only [hnone, if_pos hb] at hknown
    cases hknown
  next => exact .inl rfl

/-! ## Findings that are taken in again -/

variable {c : Cache φ τ} {file : FileId} {found : Findings} {targets : FileSet}

theorem contains_absorb (c : Cache φ τ) (file : FileId) (found : Findings) (targets : FileSet) :
    (c.absorb file found targets).2.records.contains file := by
  have hput (d : Cache φ τ) (g : FileId) (f : Record τ → Record τ)
      (h : d.records.contains file ∨ g = file) : (d.modifyRecord g f).records.contains file := by
    rw [modifyRecord, Dict.contains_eq, Dict.mem_keys_put]
    rcases h with h | rfl
    · exact .inr ((Dict.contains_eq _ _).mp h)
    · exact .inl rfl
  refine unlinkAll_induction (P := fun d => d.records.contains file) _ ?_
    fun d e _ hd => hput _ _ _ (.inl (hput _ _ _ (.inl hd)))
  exact linkAll_induction (P := fun d => d.records.contains file) _ (hput c file _ (.inr rfl))
    fun d e _ hd => hput _ _ _ (.inl (hput _ _ _ (.inl hd)))

theorem compiled_absorb :
    ((c.absorb file found targets).2.record file).compiled found =
      (c.absorb file found targets).2.record file := by
  have hbare := bare_relink (c.modifyRecord file fun r => r.compiled found) file targets file
  rw [record_modifyRecord, if_pos rfl] at hbare
  change ((c.absorb file found targets).2.record file).bare = _ at hbare
  generalize (c.absorb file found targets).2.record file = r at hbare
  cases r
  simp_all [Record.bare, Record.compiled]

theorem modifyRecord_of_eq {f : Record τ → Record τ} (hcontains : c.records.contains file)
    (hf : f (c.record file) = c.record file) : c.modifyRecord file f = c := by
  obtain ⟨r, hr⟩ := Option.isSome_iff_exists.mp hcontains
  have hrecord : c.record file = r := by simp [record, hr]
  rw [modifyRecord, hf, hrecord, Dict.put_of_get? hr]

theorem relink_of_eq (h : c.dependencies file = targets) : c.relink file targets = c := by
  have hnone (l : FileSet) : Ascending.difference l l = [] := by
    simp [Ascending.difference]
  simp only [relink, h, hnone]
  rfl

/-- Findings that a cache has taken in change nothing. -/
theorem absorb_of_compiled (hcontains : c.records.contains file)
    (hcompiled : (c.record file).compiled found = c.record file)
    (hdependencies : c.dependencies file = targets) :
    c.absorb file found targets = (⟨false, false⟩, c) := by
  have hshape : (c.record file).shape = found.shape := congrArg Record.shape hcompiled.symm
  have hreferenced : (c.record file).referenced = found.referenced :=
    congrArg Record.referenced hcompiled.symm
  have hedges : (c.record file).dependencies = targets := hdependencies
  have hsame : found.referenced.same found.referenced := by
    rw [DeclarationSet.same_iff]
    exact fun id => Iff.rfl
  rw [absorb, modifyRecord_of_eq hcontains hcompiled, relink_of_eq hdependencies]
  simp [hshape, hreferenced, hsame, hedges]

/-! ## Source maps that answer again -/

/-- A source map that gives the same answers when it is asked the same questions once more. -/
def Repeats (sources : SourceMap ω) : Prop :=
  ∀ names w, answers sources names ((targetsIn sources names).run w).2 = answers sources names w

theorem repeats_pure (find : String → Option FileId) :
    Repeats (fun name => pure (find name) : SourceMap ω) := by
  have hanswers (names : List String) (w : ω) :
      answers (fun name => pure (find name)) names w = names.map fun name => (name, find name) := by
    induction names with
    | nil => rfl
    | cons name rest ih => exact congrArg _ ih
  exact fun names w => (hanswers names _).trans (hanswers names w).symm

theorem targetsIn_eq_answers (sources : SourceMap ω) (names : List String) (w : ω) :
    ((targetsIn sources names).run w).1 = (answers sources names w).filterMap Prod.snd := by
  induction names generalizing w with
  | nil => rfl
  | cons name rest ih =>
    change ((sources name).run w).1.toList ++
      ((targetsIn sources rest).run ((sources name).run w).2).1 =
        List.filterMap Prod.snd ((name, ((sources name).run w).1) :: answers sources rest _)
    rw [ih, List.filterMap_cons]
    cases ((sources name).run w).1 <;> rfl

/-- A workspace numbers the source files that it is asked for; they keep their numbers. -/
theorem repeats_fileForTypeIn (tree : FileTree) (project : String) :
    Repeats (Workspace.fileForTypeIn tree project) := by
  let sources : SourceMap Workspace := Workspace.fileForTypeIn tree project
  have hgrows (name : String) (w : Workspace) : w.Grows ((sources name).run w).2 :=
    Workspace.fileForTypeIn_grows tree project name w
  have hone {name : String} {w w' : Workspace} (h : ((sources name).run w).2.Grows w') :
      ((sources name).run w').1 = ((sources name).run w).1 := by
    have hfound := Workspace.fileForTypeIn_eq tree project name w
    have hfound' := Workspace.fileForTypeIn_eq tree project name w'
    rw [((hgrows name w).trans h).foundSource_eq] at hfound'
    cases hsource : w.foundSource tree project name with
    | none =>
      rw [hsource] at hfound hfound'
      exact hfound'.trans hfound.symm
    | some p =>
      rw [hsource] at hfound hfound'
      obtain ⟨file, hfile, hid⟩ := hfound
      obtain ⟨file', hfile', hid'⟩ := hfound'
      have hkept := Workspace.FileRegistry.id?_of_prefix (h.trans (hgrows name w')).paths hid
      obtain rfl : file' = file := Option.some.inj (hid'.symm.trans hkept)
      exact hfile'.trans hfile.symm
  have hall (names : List String) {w w' : Workspace}
      (h : ((targetsIn sources names).run w).2.Grows w') :
      answers sources names w' = answers sources names w := by
    induction names generalizing w w' with
    | nil => rfl
    | cons name rest ih =>
      have hlater : ((targetsIn sources rest).run ((sources name).run w).2).2.Grows w' := h
      have hrest : ((sources name).run w).2.Grows
          ((targetsIn sources rest).run ((sources name).run w).2).2 :=
        run_targetsIn_induction (P := fun v => ((sources name).run w).2.Grows v) sources rest
          (Workspace.Grows.refl _) fun name v hv => hv.trans (hgrows name v)
      change (name, ((sources name).run w').1) :: answers sources rest ((sources name).run w').2 =
        (name, ((sources name).run w).1) :: answers sources rest ((sources name).run w).2
      rw [hone (hrest.trans hlater), ih (hlater.trans (hgrows name w'))]
  exact fun names w => hall names (Workspace.Grows.refl _)

/-! ## Updates -/

theorem table_absorb (c : Cache φ τ) (file : FileId) (found : Findings) (targets : FileSet) :
    (c.absorb file found targets).2.table = c.table := by
  refine unlinkAll_induction (P := fun d => d.table = c.table) _ ?_ fun _ _ _ hd => hd
  exact linkAll_induction (P := fun d => d.table = c.table) _ rfl fun _ _ _ hd => hd

/-- What an update does, with the table that it leaves. -/
theorem update_eq_absorb (source : Finder φ) (read : Path → Option (List UInt8))
    (sources : SourceMap ω) (file : FileId) (artifacts : List Path) (c : Cache φ τ) (w : ω) :
    let surveyed : Cache φ τ := { c with table := ((survey source read artifacts).run c.table).2 }
    let result := surveyed.absorb file (c.findings source read artifacts)
      (c.foundTargets source read sources file artifacts w)
    (c.update source read sources file artifacts w).1 = result.1 ∧
      (c.update source read sources file artifacts w).2.1 = result.2 := ⟨rfl, rfl⟩

/-- An update that is made again at once, with the same artifacts and a source map that answers as
before, reports no change and leaves all records as they were, whatever the first one evicted,
loaded and bound. -/
theorem update_again (hregular : source.Regular) {sources : SourceMap ω}
    (hsources : Repeats sources) (table : Table φ) (prefixes : List String)
    (calls : List (Call φ τ)) (read : Path → Option (List UInt8)) (file : FileId)
    (artifacts : List Path) (w : ω) :
    let c : Cache φ τ := (new table prefixes).run calls
    let first := c.update source read sources file artifacts w
    let second := first.2.1.update source read sources file artifacts first.2.2
    second.1.declarationsChanged = false ∧ second.1.referencesChanged = false ∧
      second.2.1.records = first.2.1.records := by
  intro c first second
  have hc : c.Consistent := run_consistent table prefixes calls
  let found := c.findings source read artifacts
  let targets := c.foundTargets source read sources file artifacts w
  have hfirst := (update_eq_absorb source read sources file artifacts c w).2
  obtain ⟨hflags, hcache⟩ :=
    update_eq_absorb source read sources file artifacts first.2.1 first.2.2
  have htable : first.2.1.table = ((survey source read artifacts).run c.table).2 := by
    rw [hfirst, table_absorb]
  have hfound : first.2.1.findings source read artifacts = found := by
    rw [findings, htable]
    exact survey_again hregular read artifacts c.table
  have hprefixes : first.2.1.systemPrefixes = c.systemPrefixes := by
    rw [hfirst, systemPrefixes_absorb]
  have htargets :
      first.2.1.foundTargets source read sources file artifacts first.2.2 = targets := by
    have hworld : first.2.2 = ((targetsIn sources
        (rootTypes c.systemPrefixes found.referenced)).run w).2 :=
      update_world source read sources file artifacts c w
    simp only [targets]
    rw [foundTargets_eq, foundTargets_eq, hfound, hprefixes, hworld, targetsIn_eq_answers,
      targetsIn_eq_answers, hsources]
  rw [hfound, htargets] at hflags hcache
  let surveyed : Cache φ τ := { first.2.1 with
    table := ((survey source read artifacts).run first.2.1.table).2 }
  have hsame : surveyed.absorb file found targets = (⟨false, false⟩, surveyed) := by
    refine absorb_of_compiled ?_ ?_ (dependencies_update hc source read sources file artifacts w)
    · change first.2.1.records.contains file
      rw [hfirst]
      exact contains_absorb _ _ _ _
    · change (first.2.1.record file).compiled found = first.2.1.record file
      rw [hfirst]
      exact compiled_absorb
  rw [hsame] at hflags hcache
  have hrecords : second.2.1.records = surveyed.records := congrArg Cache.records hcache
  exact ⟨congrArg Update.declarationsChanged hflags, congrArg Update.referencesChanged hflags,
    hrecords⟩

/-- A type that extends another, with the artifact of each. -/
def extending : ArtifactStore :=
  let derived : Artifact.ClassDescription := { thisClass := "p/A", superClass := some "p/B" }
  let base : Artifact.ClassDescription := { thisClass := "p/B" }
  { artifacts := .ofList [("p/A", some derived.encode), ("p/B", some base.encode)] }

/-- The base is defined by another file. -/
def baseFile (name : String) : Option FileId := if name = "p.B" then some 1 else none

def readExtending (p : Path) : Option (List UInt8) := (extending.artifacts.get? p.text).join

/-- A first update finds what a type declares and the file that it depends on. -/
theorem update_again_extending :
    let sources : SourceMap Unit := fun name => pure (baseFile name)
    let c : Cache ArtifactStore Unit := (new { finder := extending } []).run []
    let first := c.update ArtifactStore.finder readExtending sources 0 [⟨"p/A"⟩] ()
    let second := first.2.1.update ArtifactStore.finder readExtending sources 0 [⟨"p/A"⟩] first.2.2
    first.1 = ⟨true, true⟩ ∧ second.1.declarationsChanged = false ∧
      second.1.referencesChanged = false ∧ second.2.1.records = first.2.1.records :=
  ⟨by decide +kernel,
    update_again ArtifactStore.finder_lawful.regular (repeats_pure baseFile) _ _ _ _ _ _ _⟩

end Cache

end Dependency

end Rebuild
