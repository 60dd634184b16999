import Mathlib
import Rebuild.Proofs.FileTree.Edits

/-! Runs of edits. Main statement: when files are written to two trees with the same directories
and no directory is made on the way, the trees agree about these files afterwards. -/
namespace Rebuild.FileTree

variable {t u : FileTree} {q : List String}

/-! ## Writing files -/

/-- Writes some files, one after the other. -/
def writeAll (t : FileTree) (files : List (Path × Content)) : FileTree :=
  files.foldl (fun t file => t.write file.1 file.2) t

theorem isDirectoryAt_write (ht : t.Proper) (p : Path) (content : Content)
    (h : t.isDirectoryAt q) : (t.write p content).isDirectoryAt q := by
  obtain ⟨t₁, hextends, hsame, -⟩ := write_spec ht p content
  rw [← hsame q]
  exact hextends.directories q h

theorem of_isDirectoryAt_write (ht : t.Proper) {p : Path} {content : Content}
    (h : (t.write p content).isDirectoryAt q) : t.isDirectoryAt q ∨ q ∈ writtenPlaces p := by
  obtain ⟨t₁, hextends, hsame, -⟩ := write_spec ht p content
  rw [← hsame q] at h
  exact hextends.made q h

theorem Proper.write (ht : t.Proper) (p : Path) (content : Content) :
    (t.write p content).Proper := by
  obtain ⟨t₁, -, -, hproper, -⟩ := write_spec ht p content
  exact hproper

/-- When no directory is made, the file is put where its path leads already. -/
theorem content?_write (ht : t.Proper) {p : Path} {content : Content}
    (h : t.SameDirectories (t.write p content)) (q : List String) :
    (t.write p content).content? q =
      if t.target? p = some q then some content else t.content? q := by
  obtain ⟨t₁, hextends, hsame, -, hcontent⟩ := write_spec ht p content
  have hmade : t.SameDirectories t₁ := fun place => by rw [h place, hsame place]
  rw [hcontent q, hmade.target?_eq p]

theorem Proper.writeAll (ht : t.Proper) (files : List (Path × Content)) :
    (t.writeAll files).Proper := by
  induction files generalizing t with
  | nil => exact ht
  | cons file rest ih => exact ih (ht.write file.1 file.2)

theorem isDirectoryAt_writeAll (ht : t.Proper) (files : List (Path × Content))
    (h : t.isDirectoryAt q) : (t.writeAll files).isDirectoryAt q := by
  induction files generalizing t with
  | nil => exact h
  | cons file rest ih =>
    exact ih (ht.write file.1 file.2) (isDirectoryAt_write ht file.1 file.2 h)

theorem of_isDirectoryAt_writeAll (ht : t.Proper) {files : List (Path × Content)}
    (h : (t.writeAll files).isDirectoryAt q) :
    t.isDirectoryAt q ∨ ∃ file ∈ files, q ∈ writtenPlaces file.1 := by
  induction files generalizing t with
  | nil => exact .inl h
  | cons file rest ih =>
    rcases ih (ht.write file.1 file.2) h with hwritten | ⟨other, hother, hq⟩
    · rcases of_isDirectoryAt_write ht hwritten with hold | hnew
      · exact .inl hold
      · exact .inr ⟨file, List.mem_cons_self .., hnew⟩
    · exact .inr ⟨other, List.mem_cons_of_mem _ hother, hq⟩

theorem exists_made_of_not_same (ht : t.Proper) {files : List (Path × Content)}
    (h : ¬ t.SameDirectories (t.writeAll files)) :
    ∃ q, ¬ t.isDirectoryAt q ∧ (t.writeAll files).isDirectoryAt q ∧
      ∃ file ∈ files, q ∈ writtenPlaces file.1 := by
  by_contra hnone
  refine h fun place => Bool.eq_iff_iff.mpr
    ⟨isDirectoryAt_writeAll ht files, fun hplace => ?_⟩
  by_contra hold
  exact hnone ⟨place, hold, hplace, (of_isDirectoryAt_writeAll ht hplace).resolve_left hold⟩

/-- Both trees have the same file at a place. -/
def Share (t u : FileTree) (q : List String) : Prop :=
  ∃ content, t.content? q = some content ∧ u.content? q = some content

theorem Share.symm (h : t.Share u q) : u.Share t q := by
  obtain ⟨content, ht, hu⟩ := h
  exact ⟨content, hu, ht⟩

/-- The first of some writes makes no directory if all together make none. -/
theorem sameDirectories_write (ht : t.Proper) {file : Path × Content}
    {rest : List (Path × Content)} (h : t.SameDirectories (t.writeAll (file :: rest))) :
    t.SameDirectories (t.write file.1 file.2) := by
  intro place
  rw [Bool.eq_iff_iff]
  constructor
  · exact isDirectoryAt_write ht file.1 file.2
  · intro hplace
    rw [h place]
    exact isDirectoryAt_writeAll (ht.write file.1 file.2) rest hplace

theorem writeAll_share {files : List (Path × Content)} (ht : t.Proper) (hu : u.Proper)
    (hsame : t.SameDirectories u) (htkeep : t.SameDirectories (t.writeAll files))
    (hukeep : u.SameDirectories (u.writeAll files))
    (hq : t.Share u q ∨ ∃ file ∈ files, t.target? file.1 = some q) :
    (t.writeAll files).Share (u.writeAll files) q := by
  induction files generalizing t u with
  | nil =>
    rcases hq with hq | ⟨file, hfile, -⟩
    · exact hq
    · cases hfile
  | cons file rest ih =>
    have htfirst := sameDirectories_write ht htkeep
    have hufirst := sameDirectories_write hu hukeep
    refine ih (ht.write _ _) (hu.write _ _) (htfirst.symm.trans (hsame.trans hufirst))
      (htfirst.symm.trans htkeep) (hufirst.symm.trans hukeep) ?_
    by_cases hother : ∃ other ∈ rest, t.target? other.1 = some q
    · obtain ⟨other, hmem, htarget⟩ := hother
      exact .inr ⟨other, hmem, htfirst.target?_eq other.1 ▸ htarget⟩
    · refine .inl ?_
      unfold Share
      rw [content?_write ht htfirst, content?_write hu hufirst, ← hsame.target?_eq]
      split_ifs with htarget
      · exact ⟨file.2, rfl, rfl⟩
      · rcases hq with hq | ⟨other, hmem, hfound⟩
        · exact hq
        · rcases List.mem_cons.mp hmem with rfl | hmem
          · exact absurd hfound htarget
          · exact absurd ⟨other, hmem, hfound⟩ hother

/-! ## Deleting files -/

theorem foldl_deleteFile_spec (ht : t.Proper) (paths : List Path) :
    t.SameDirectories (paths.foldl deleteFile t) ∧ (paths.foldl deleteFile t).Proper ∧
      ∀ q, (paths.foldl deleteFile t).content? q =
        if ∃ p ∈ paths, t.target? p = some q then none else t.content? q := by
  induction paths generalizing t with
  | nil => exact ⟨SameDirectories.refl t, ht, fun q => by simp⟩
  | cons p rest ih =>
    obtain ⟨hsame, hproper, hcontent⟩ := deleteFile_spec ht p
    obtain ⟨hrest, hproper', hcontent'⟩ := ih hproper
    refine ⟨hsame.trans hrest, hproper', fun q => ?_⟩
    rw [List.foldl_cons, hcontent' q, hcontent q]
    simp only [← hsame.target?_eq, List.mem_cons, exists_eq_or_imp]
    by_cases hfirst : t.target? p = some q
    · simp [hfirst]
    · simp [hfirst]

/-- When the same of two files are deleted, both trees share it or neither has it. -/
theorem content?_foldl_deleteFile_eq (ht : t.Proper) (hu : u.Proper) {paths more : List Path}
    (hshare : t.Share u q) (hiff : (∃ p ∈ paths, t.target? p = some q) ↔
      ∃ p ∈ more, u.target? p = some q) :
    (paths.foldl deleteFile t).content? q = (more.foldl deleteFile u).content? q := by
  obtain ⟨content, htq, huq⟩ := hshare
  rw [(foldl_deleteFile_spec ht paths).2.2 q, (foldl_deleteFile_spec hu more).2.2 q, htq, huq]
  simp only [hiff]

/-! ## Listing directories -/

theorem SameDirectories.resolve_eq (h : t.SameDirectories u) {p : Path} {place : List String}
    (hresolve : t.resolve p = .ok place) (hdirectory : t.isDirectoryAt place) :
    u.resolve p = .ok place := by
  unfold resolve at hresolve ⊢
  rcases hpieces : FileTree.pieces p with fault | pieces
  · rw [hpieces] at hresolve
    cases hresolve
  rw [hpieces] at hresolve
  change t.follow [] pieces = .ok place at hresolve
  have hopens := opens_iff.mpr ⟨place, hresolve, hdirectory⟩
  rw [h.opens_eq] at hopens
  obtain ⟨last, hfollow, -⟩ := opens_iff.mp hopens
  change u.follow [] pieces = .ok place
  rw [hfollow, follow_eq_ok hfollow, follow_eq_ok hresolve]

/-- A shared file that is listed in one of the trees is listed in the other one, too. -/
theorem Share.listed (ht : t.Proper) (hsame : t.SameDirectories u) (hq : t.Share u q) {p : Path}
    {name : String} (hlist : ∃ names, t.list? p = some names ∧ name ∈ names)
    (htarget : t.target? (p.join ⟨name⟩) = some q) :
    ∃ names, u.list? p = some names ∧ name ∈ names := by
  obtain ⟨place, hresolve, hdirectory, hmem⟩ := mem_list?.mp hlist
  have hname : '/' ∉ name.toList :=
    ht.names _ hmem name (List.mem_append_right _ (List.mem_singleton_self _))
  obtain rfl := target?_join hname hresolve htarget
  obtain ⟨content, -, hu⟩ := hq
  refine mem_list?.mpr ⟨place, hsame.resolve_eq hresolve hdirectory, hsame place ▸ hdirectory, ?_⟩
  refine mem_keys_of_isSome ?_ (by simp)
  unfold content? at hu
  split at hu
  next hentry => simp [hentry]
  next => cases hu

end Rebuild.FileTree
