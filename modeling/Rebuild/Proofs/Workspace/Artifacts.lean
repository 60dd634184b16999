import Mathlib
import Rebuild.Proofs.FileTree.Alike
import Rebuild.Workspace.Sources

/-! The artifacts that come from a source file. Main statement: of files that two trees share, the
same are artifacts in place of a source file. -/
namespace Rebuild.Workspace

open FileTree

variable {w : Workspace} {t u : FileTree} {source a : Path}

theorem mem_artifactsForSource : a ∈ w.artifactsForSource t source ↔
    ∃ p binary directory stem name, w.projectForSource? source = some p ∧
      w.typeOfSource? source = some binary ∧
      (p.buildRoot.join ⟨Name.toInternal binary⟩).parent? = some directory ∧
      (p.buildRoot.join ⟨Name.toInternal binary⟩).fileName? = some stem ∧
      (∃ names, t.list? directory = some names ∧ name ∈ names) ∧ a = directory.join ⟨name⟩ ∧
      w.isArtifactOf stem a := by
  unfold artifactsForSource
  constructor
  · intro h
    split at h
    next p binary hp hbinary =>
      unfold artifactsAt at h
      split at h
      next directory stem hdirectory hstem =>
        obtain ⟨ha, hartifact⟩ := List.mem_filter.mp (Path.mem_sort.mp h)
        obtain ⟨name, hname, rfl⟩ := List.mem_map.mp ha
        refine ⟨p, binary, directory, stem, name, hp, hbinary, hdirectory, hstem, ?_, rfl,
          hartifact⟩
        rcases hlist : t.list? directory with _ | names
        · rw [hlist] at hname
          cases hname
        · rw [hlist] at hname
          exact ⟨names, rfl, hname⟩
      next => cases h
    next => cases h
  · rintro ⟨p, binary, directory, stem, name, hp, hbinary, hdirectory, hstem,
      ⟨names, hlist, hname⟩, rfl, hartifact⟩
    simp only [hp, hbinary, artifactsAt, hdirectory, hstem, hlist, Option.getD_some]
    refine Path.mem_sort.mpr (List.mem_filter.mpr ⟨?_, hartifact⟩)
    exact List.mem_map_of_mem hname

theorem mem_artifactsForSource_of_share (ht : t.Proper) (hsame : t.SameDirectories u)
    {q : List String} (hq : t.Share u q) (ha : a ∈ w.artifactsForSource t source)
    (htarget : t.target? a = some q) : a ∈ w.artifactsForSource u source := by
  obtain ⟨p, binary, directory, stem, name, hp, hbinary, hdirectory, hstem, hlist, rfl,
    hartifact⟩ := mem_artifactsForSource.mp ha
  exact mem_artifactsForSource.mpr ⟨p, binary, directory, stem, name, hp, hbinary, hdirectory,
    hstem, hq.listed ht hsame hlist htarget, rfl, hartifact⟩

/-- The artifacts of a source file that are none of some given ones. -/
def staleArtifacts (w : Workspace) (t : FileTree) (source : Path) (produced : List Path) :
    List Path :=
  (w.artifactsForSource t source).filter fun artifact => !produced.any artifact.same

/-- Writes files and deletes the artifacts of a source file that are none of some given ones. -/
def produce (w : Workspace) (t : FileTree) (source : Path) (files : List (Path × Content))
    (produced : List Path) : FileTree :=
  (w.staleArtifacts (t.writeAll files) source produced).foldl deleteFile (t.writeAll files)

theorem stale_target_iff (w : Workspace) (source : Path) (produced : List Path) (ht : t.Proper)
    (hu : u.Proper) (hsame : t.SameDirectories u) {q : List String} (hq : t.Share u q) :
    (∃ a ∈ w.staleArtifacts t source produced, t.target? a = some q) ↔
      ∃ a ∈ w.staleArtifacts u source produced, u.target? a = some q := by
  constructor
  · rintro ⟨a, ha, htarget⟩
    obtain ⟨hmem, hstale⟩ := List.mem_filter.mp ha
    refine ⟨a, List.mem_filter.mpr ⟨?_, hstale⟩, hsame.target?_eq a ▸ htarget⟩
    exact mem_artifactsForSource_of_share ht hsame hq hmem htarget
  · rintro ⟨a, ha, htarget⟩
    obtain ⟨hmem, hstale⟩ := List.mem_filter.mp ha
    refine ⟨a, List.mem_filter.mpr ⟨?_, hstale⟩, hsame.symm.target?_eq a ▸ htarget⟩
    exact mem_artifactsForSource_of_share hu hsame.symm hq.symm hmem htarget

/-- What is read of the written files afterwards is the same for all trees with the same
directories, unless writing them makes directories. -/
theorem produce_read_eq (w : Workspace) (source : Path) (ht : t.Proper) (hu : u.Proper)
    (hsame : t.SameDirectories u) {files : List (Path × Content)} (htkeep : t.SameDirectories (t.writeAll files))
    (hukeep : u.SameDirectories (u.writeAll files)) (produced : List Path) {p : Path}
    (hp : ∃ file ∈ files, file.1 = p) :
    ((w.produce t source files produced).read p).toOption =
      ((w.produce u source files produced).read p).toOption := by
  have htwritten := ht.writeAll files
  have huwritten := hu.writeAll files
  have hwritten : (t.writeAll files).SameDirectories (u.writeAll files) :=
    htkeep.symm.trans (hsame.trans hukeep)
  obtain ⟨htdeleted, htproper, -⟩ :=
    foldl_deleteFile_spec htwritten (w.staleArtifacts (t.writeAll files) source produced)
  obtain ⟨hudeleted, huproper, -⟩ :=
    foldl_deleteFile_spec huwritten (w.staleArtifacts (u.writeAll files) source produced)
  unfold produce
  rw [read_toOption htproper, read_toOption huproper, ← htdeleted.target?_eq,
    ← hudeleted.target?_eq, ← hwritten.target?_eq]
  rcases htarget : (t.writeAll files).target? p with _ | q
  · rfl
  · have hshare : (t.writeAll files).Share (u.writeAll files) q := by
      obtain ⟨file, hfile, rfl⟩ := hp
      refine writeAll_share ht hu hsame htkeep hukeep (.inr ⟨file, hfile, ?_⟩)
      rw [htkeep.target?_eq, htarget]
    have hcontent := content?_foldl_deleteFile_eq htwritten huwritten hshare
      (stale_target_iff w source produced htwritten huwritten hwritten hshare)
    simp only [Option.bind_some, hcontent]

/-- Producing the same artifacts keeps trees alike. -/
theorem produce_alike (w : Workspace) (source : Path) (ht : t.Proper) (hu : u.Proper)
    (h : t.Alike u) (files : List (Path × Content)) (produced : List Path) :
    (w.produce t source files produced).Alike (w.produce u source files produced) := by
  have hwritten := h.writeAll files
  have htwritten := ht.writeAll files
  have huwritten := hu.writeAll files
  obtain ⟨htdeleted, -, htcontent⟩ :=
    foldl_deleteFile_spec htwritten (w.staleArtifacts (t.writeAll files) source produced)
  obtain ⟨hudeleted, -, hucontent⟩ :=
    foldl_deleteFile_spec huwritten (w.staleArtifacts (u.writeAll files) source produced)
  refine ⟨htdeleted.symm.trans (hwritten.directories.trans hudeleted), fun q => ?_⟩
  rcases hq : (u.writeAll files).content? q with _ | content
  · unfold produce
    rw [htcontent, hucontent, hwritten.contents, hq]
    split_ifs <;> rfl
  · have hshare : (t.writeAll files).Share (u.writeAll files) q :=
      ⟨content, (hwritten.contents q).trans hq, hq⟩
    exact content?_foldl_deleteFile_eq htwritten huwritten hshare
      (stale_target_iff w source produced htwritten huwritten hwritten.directories hshare)

/-! ## Names and places -/

/-- The last piece of a path, if it counts, is the last component. -/
theorem fileName?_join {p : Path} {name : String} (hslash : '/' ∉ name.toList)
    (hname : Path.isName name.toList) : (p.join ⟨name⟩).fileName? = some name := by
  have hlast : (p.join ⟨name⟩).pieces.getLast? = some name.toList := by
    rw [Path.getLast?_pieces_join, Path.pieces_of_not_mem hslash, List.getLast?_singleton]
  rw [Path.fileName?_of_getLast? hlast hname, String.ofList_toList]

/-- Where the artifacts of a source lie: their directory, and the simple name of its type. -/
def home? (w : Workspace) (t : FileTree) (source : Path) : Option (List String × String) := do
  let p ← w.projectForSource? source
  let binary ← w.typeOfSource? source
  let candidate := p.buildRoot.join ⟨Name.toInternal binary⟩
  let directory ← candidate.parent?
  let stem ← candidate.fileName?
  let place ← (t.resolve directory).toOption
  return (place, stem)

/-- Does a file with this name come from the type with the simple name `stem`, or from one nested
in it? -/
def bears (stem name : String) : Bool :=
  Name.isSelfOrNested stem (String.ofList (Path.splitName name.toList).1)

/-- Is this the place of an artifact of the source, by its name? -/
def claims (w : Workspace) (t : FileTree) (source : Path) (place : List String) : Bool :=
  (w.home? t source).any fun home =>
    place.getLast?.any fun name => place.dropLast = home.1 && bears home.2 name

theorem claims_iff {place : List String} : w.claims t source place ↔
    ∃ directory stem name, w.home? t source = some (directory, stem) ∧
      place = directory ++ [name] ∧ bears stem name := by
  unfold claims
  constructor
  · intro h
    obtain ⟨⟨directory, stem⟩, hhome, h⟩ := (Option.any_eq_true _ _).mp h
    obtain ⟨name, hname, h⟩ := (Option.any_eq_true _ _).mp h
    obtain ⟨hdirectory, hbears⟩ := Bool.and_eq_true_iff.mp h
    refine ⟨directory, stem, name, hhome, ?_, hbears⟩
    rw [← List.dropLast_append_getLast? name hname, of_decide_eq_true hdirectory]
  · rintro ⟨directory, stem, name, hhome, rfl, hbears⟩
    simp [hhome, hbears]

/-- The artifacts that are found for a source bear the name of its type. -/
theorem claims_of_mem_artifactsForSource (ht : t.Proper) {place : List String}
    (ha : a ∈ w.artifactsForSource t source) (htarget : t.target? a = some place) :
    w.claims t source place := by
  obtain ⟨p, binary, directory, stem, name, hp, hbinary, hdirectory, hstem, hlist, rfl,
    hartifact⟩ := mem_artifactsForSource.mp ha
  obtain ⟨above, hresolve, -, hkey⟩ := mem_list?.mp hlist
  have hslash : '/' ∉ name.toList := ht.names _ hkey name (by simp)
  obtain rfl := target?_join hslash hresolve htarget
  have hname : Path.isName name.toList := by
    obtain ⟨_, _, last, -, -, -, -, -, hlast, -, hplace, -⟩ := target?_eq_some htarget
    obtain ⟨-, hname⟩ := List.append_inj' hplace rfl
    rw [(List.cons.inj hname).1, String.toList_ofList]
    exact hlast
  refine claims_iff.mpr ⟨above, stem, name, ?_, rfl, ?_⟩
  · simp [home?, hp, hbinary, hdirectory, hstem, hresolve, Except.toOption]
  · have hbears := (Bool.and_eq_true_iff.mp hartifact).2
    rwa [Path.fileStem?, fileName?_join hslash hname] at hbears

/-- Without a `$` in it the name of an outermost type can be read off the names of artifacts. -/
theorem bears_unique {stem other name : String} (h : bears stem name) (h' : bears other name)
    (hstem : '$' ∉ stem.toList) (hother : '$' ∉ other.toList) : stem = other := by
  have hread {top found : String} (hfound : Name.isSelfOrNested top found)
      (htop : '$' ∉ top.toList) : found.toList.takeWhile (· ≠ '$') = top.toList := by
    have hall : ∀ c ∈ top.toList, decide (c ≠ '$') = true := by
      intro c hc
      simpa using fun heq : c = '$' => htop (heq ▸ hc)
    unfold Name.isSelfOrNested at hfound
    rcases Bool.or_eq_true_iff.mp hfound with heq | hprefix
    · rw [beq_iff_eq.mp heq]
      exact List.takeWhile_eq_self_iff.mpr hall
    · obtain ⟨rest, hrest⟩ := List.isPrefixOf_iff_prefix.mp hprefix
      rw [← hrest, List.append_assoc, List.takeWhile_append_of_pos hall]
      simp
  rw [← String.toList_inj, ← hread h hstem, ← hread h' hother]

/-- Of the files that are found for a source, those that were not produced again are deleted. -/
theorem produced_of_remains (ht : t.Proper) {produced : List Path}
    (ha : a ∈ w.artifactsForSource ((w.staleArtifacts t source produced).foldl deleteFile t) source)
    (hfile : ((w.staleArtifacts t source produced).foldl deleteFile t).isFile a) :
    ∃ b ∈ produced, a.same b := by
  obtain ⟨hsame, hproper, hcontent⟩ :=
    foldl_deleteFile_spec ht (w.staleArtifacts t source produced)
  obtain ⟨place, htarget, hsome⟩ := (isFile_iff hproper).mp hfile
  have hbefore : t.target? a = some place := hsame.target?_eq a ▸ htarget
  have hremains : ¬ ∃ b ∈ w.staleArtifacts t source produced, t.target? b = some place := by
    intro hdeleted
    rw [hcontent, if_pos hdeleted] at hsome
    cases hsome
  have hold := hcontent place
  rw [if_neg hremains] at hold
  obtain ⟨content, hfound⟩ := Option.isSome_iff_exists.mp hsome
  have hlisted : a ∈ w.artifactsForSource t source :=
    mem_artifactsForSource_of_share hproper hsame.symm ⟨content, hfound, hold ▸ hfound⟩ ha htarget
  by_contra hnone
  refine hremains ⟨a, List.mem_filter.mpr ⟨hlisted, ?_⟩, hbefore⟩
  simpa using hnone

end Rebuild.Workspace
