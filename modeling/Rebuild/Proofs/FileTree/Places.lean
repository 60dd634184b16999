import Mathlib
import Rebuild.FileTree.Edit
import Rebuild.Proofs.Path

/-! Where the paths of files lead. Main statement: which file a path stands for is said by the
directories of the tree and the names in the path alone. -/
namespace Rebuild.FileTree

variable {t t' : FileTree} {place next : List String} {piece : List Char}
  {pieces : List (List Char)} {p : Path}

/-! ## Places by names alone -/

/-- Where a piece leads from a place, if it leads anywhere. -/
def advance (place : List String) (piece : List Char) : List String :=
  match nameOf piece with
  | none => place
  | some name => if name = ".." then place.dropLast else place ++ [name]

theorem nameOf_of_isName (h : Path.isName piece) :
    nameOf piece = some (String.ofList piece) ∧ String.ofList piece ≠ ".." := by
  obtain ⟨hcounts, hup⟩ := Path.isName_iff.mp h
  refine ⟨by simp [nameOf, hcounts], fun heq => hup ?_⟩
  exact String.ofList_injective heq

theorem advance_of_isName (h : Path.isName piece) :
    advance place piece = place ++ [String.ofList piece] := by
  obtain ⟨hname, hne⟩ := nameOf_of_isName h
  simp [advance, hname, hne]

theorem step_eq_ok (h : t.step place piece = .ok next) :
    t.isDirectoryAt place ∧ next = advance place piece := by
  unfold step at h
  split at h
  next => cases h
  next hdirectory =>
    refine ⟨by simpa using hdirectory, ?_⟩
    cases hname : nameOf piece with
    | none =>
      rw [hname] at h
      cases h
      simp [advance, hname]
    | some name =>
      simp only [hname] at h
      split_ifs at h with hup hlong hentry <;> cases h <;> simp [advance, hname, hup]

theorem follow_eq_ok (h : t.follow place pieces = .ok next) :
    next = pieces.foldl advance place := by
  induction pieces generalizing place with
  | nil =>
    cases h
    rfl
  | cons piece rest ih =>
    unfold follow at h
    rcases hstep : t.step place piece with fault | middle
    · rw [hstep] at h
      cases h
    · rw [hstep] at h
      rw [List.foldl_cons, ← (step_eq_ok hstep).2]
      exact ih h

theorem follow_append (more : List (List Char)) :
    t.follow place (pieces ++ more) =
      (t.follow place pieces >>= fun last => t.follow last more) := by
  induction pieces generalizing place with
  | nil => rfl
  | cons piece rest ih =>
    rw [List.cons_append, follow, follow]
    rcases t.step place piece with fault | middle
    · rfl
    · exact ih

/-! ## Directories on the way -/

/-- Can the system take the piece as a name? -/
def fits (piece : List Char) : Bool := (String.ofList piece).utf8ByteSize ≤ maxNameSize

/-- A name that an entry of a directory can have. -/
structure IsEntryName (name : String) : Prop where
  isName : Path.isName name.toList
  no_slash : '/' ∉ name.toList
  no_nul : '\x00' ∉ name.toList
  fits : fits name.toList

/-- Do the pieces lead from directory to directory? -/
def opens (t : FileTree) : List String → List (List Char) → Bool
  | place, [] => t.isDirectoryAt place
  | place, piece :: rest =>
    t.isDirectoryAt place && fits piece && t.opens (advance place piece) rest

theorem isDirectoryAt_of_opens (h : t.opens place pieces) : t.isDirectoryAt place := by
  cases pieces with
  | nil => exact h
  | cons piece rest =>
    simp only [opens, Bool.and_eq_true] at h
    exact h.1.1

theorem isSome_of_isDirectoryAt (h : t.isDirectoryAt place) : (t.entry? place).isSome := by
  unfold isDirectoryAt at h
  split at h
  next hentry => simp [hentry]
  next => cases h

theorem step_of_opens (h : t.opens place (piece :: pieces)) :
    t.step place piece = .ok (advance place piece) := by
  simp only [opens, Bool.and_eq_true, fits, decide_eq_true_eq] at h
  obtain ⟨⟨hdirectory, hfits⟩, hrest⟩ := h
  have hnext := isSome_of_isDirectoryAt (isDirectoryAt_of_opens hrest)
  unfold step advance at *
  rw [hdirectory]
  cases hname : nameOf piece with
  | none => rfl
  | some name =>
    have heq : name = String.ofList piece := by
      unfold nameOf at hname
      split_ifs at hname
      exact (Option.some.inj hname).symm
    rw [← heq] at hfits
    simp only [hname] at hnext ⊢
    by_cases hup : name = ".."
    · simp [hup]
    · simp only [hup, ↓reduceIte] at hnext ⊢
      simp [Nat.not_lt.mpr hfits, hnext]

theorem fits_of_step
    (h : (∃ next, t.step place piece = .ok next) ∨ t.step place piece = .error .notFound) :
    fits piece := by
  by_cases hname : Path.isName piece
  · obtain ⟨hsome, hne⟩ := nameOf_of_isName hname
    unfold step at h
    simp only [hsome, hne, ↓reduceIte] at h
    by_contra hlong
    simp only [fits, decide_eq_true_eq, Nat.not_le] at hlong
    split_ifs at h <;> simp at h
  · -- The pieces that are no names are short.
    have hshort : piece = [] ∨ piece = ['.'] ∨ piece = ['.', '.'] := by
      simp only [Path.isName, Path.isVacuous, Bool.and_eq_true, Bool.not_eq_true',
        Bool.or_eq_false_iff, bne_iff_ne, beq_eq_false_iff_ne] at hname
      tauto
    rcases hshort with rfl | rfl | rfl <;> decide

theorem opens_iff :
    t.opens place pieces ↔ ∃ last, t.follow place pieces = .ok last ∧ t.isDirectoryAt last := by
  induction pieces generalizing place with
  | nil => exact ⟨fun h => ⟨place, rfl, h⟩, fun ⟨_, h, hlast⟩ => by cases h; exact hlast⟩
  | cons piece rest ih =>
    constructor
    · intro h
      have hstep := step_of_opens h
      simp only [opens, Bool.and_eq_true] at h
      rw [follow, hstep]
      exact ih.mp h.2
    · rintro ⟨last, h, hlast⟩
      rw [follow] at h
      rcases hstep : t.step place piece with fault | middle
      · rw [hstep] at h
        cases h
      · rw [hstep] at h
        obtain ⟨hdirectory, rfl⟩ := step_eq_ok hstep
        have hfits := fits_of_step (.inl ⟨_, hstep⟩)
        simp only [opens, Bool.and_eq_true]
        exact ⟨⟨hdirectory, hfits⟩, ih.mpr ⟨last, h, hlast⟩⟩

/-! ## The places of files -/

/-- The place of the file that a path stands for, whether there is one or not. -/
def target? (t : FileTree) (p : Path) : Option (List String) :=
  match FileTree.pieces p with
  | .error _ => none
  | .ok pieces =>
    let last := pieces.getLastD []
    let place := pieces.foldl advance []
    if t.opens [] pieces.dropLast && Path.isName last && fits last && !t.isDirectoryAt place
    then some place else none

/-- The trees have the same directories. -/
def SameDirectories (t t' : FileTree) : Prop :=
  ∀ place, t.isDirectoryAt place = t'.isDirectoryAt place

namespace SameDirectories

variable {t'' : FileTree}

theorem refl (t : FileTree) : t.SameDirectories t := fun _ => rfl

theorem symm (h : t.SameDirectories t') : t'.SameDirectories t := fun place => (h place).symm

theorem trans (h : t.SameDirectories t') (h' : t'.SameDirectories t'') : t.SameDirectories t'' :=
  fun place => (h place).trans (h' place)

theorem opens_eq (h : t.SameDirectories t') (place : List String) (pieces : List (List Char)) :
    t.opens place pieces = t'.opens place pieces := by
  induction pieces generalizing place with
  | nil => exact h place
  | cons piece rest ih => rw [opens, opens, h place, ih]

theorem target?_eq (h : t.SameDirectories t') (p : Path) : t.target? p = t'.target? p := by
  unfold target?
  split
  · rfl
  · simp only [h.opens_eq, h _]

end SameDirectories

theorem pieces_eq_ok (h : FileTree.pieces p = .ok pieces) : pieces = p.pieces := by
  unfold FileTree.pieces at h
  split_ifs at h
  cases h
  rfl

/-- A piece that names something, of a path that the system takes, is a name for an entry. -/
theorem isEntryName_of_mem (h : FileTree.pieces p = .ok pieces) (hmem : piece ∈ pieces)
    (hname : Path.isName piece) (hfits : fits piece) : IsEntryName (String.ofList piece) := by
  obtain rfl := pieces_eq_ok h
  have hnul : '\x00' ∉ p.text.toList := by
    intro hnul
    unfold FileTree.pieces at h
    rw [if_pos (List.contains_iff_mem.mpr hnul)] at h
    cases h
  refine ⟨?_, ?_, ?_, ?_⟩ <;> rw [String.toList_ofList]
  · exact hname
  · exact Path.slash_not_mem hmem
  · exact fun hpiece => hnul ((Path.mem_text_iff (by decide)).mpr ⟨piece, hmem, hpiece⟩)
  · exact hfits

theorem pieces_ne_nil (h : FileTree.pieces p = .ok pieces) : pieces ≠ [] := by
  rw [pieces_eq_ok h]
  exact Path.pieces_ne_nil p

theorem eq_dropLast_append (h : pieces ≠ []) : pieces = pieces.dropLast ++ [pieces.getLastD []] := by
  rw [List.getLastD_eq_getLast?, List.getLast?_eq_getLast_of_ne_nil h]
  exact (List.dropLast_append_getLast h).symm

theorem getLastD_mem (h : pieces ≠ []) : pieces.getLastD [] ∈ pieces := by
  rw [List.getLastD_eq_getLast?, List.getLast?_eq_getLast_of_ne_nil h]
  exact List.getLast_mem h

/-- What is known of the place of a file. -/
theorem target?_eq_some (h : t.target? p = some place) :
    ∃ pieces directory last, FileTree.pieces p = .ok pieces ∧ pieces = pieces.dropLast ++ [last] ∧
      pieces.getLastD [] = last ∧ t.follow [] pieces.dropLast = .ok directory ∧
      t.isDirectoryAt directory ∧ Path.isName last ∧ fits last ∧
      place = directory ++ [String.ofList last] ∧ t.isDirectoryAt place = false := by
  unfold target? at h
  split at h
  next => cases h
  next pieces hpieces =>
    simp only at h
    split_ifs at h with hall
    simp only [Bool.and_eq_true, Bool.not_eq_true'] at hall
    obtain ⟨⟨⟨hopens, hname⟩, hfits⟩, hnot⟩ := hall
    obtain ⟨directory, hfollow, hdirectory⟩ := opens_iff.mp hopens
    have hsplit := eq_dropLast_append (pieces_ne_nil hpieces)
    have hplace : place = directory ++ [String.ofList (pieces.getLastD [])] := by
      rw [← Option.some.inj h, hsplit, List.foldl_append, ← follow_eq_ok hfollow, ← hsplit]
      exact advance_of_isName hname
    refine ⟨pieces, directory, _, hpieces, hsplit, rfl, hfollow, hdirectory, hname, hfits, hplace,
      ?_⟩
    rw [← Option.some.inj h]
    exact hnot

theorem step_of_isName (hdirectory : t.isDirectoryAt place) (hname : Path.isName piece)
    (hfits : fits piece) : t.step place piece =
      if (t.entry? (place ++ [String.ofList piece])).isSome
      then .ok (place ++ [String.ofList piece]) else .error .notFound := by
  obtain ⟨hsome, hne⟩ := nameOf_of_isName hname
  have hlong : ¬ (String.ofList piece).utf8ByteSize > maxNameSize := by
    simpa [fits] using hfits
  unfold step
  simp only [hdirectory, Bool.not_true, Bool.false_eq_true, ↓reduceIte, hsome, hne, hlong]

theorem resolve_eq (h : FileTree.pieces p = .ok pieces) : t.resolve p =
    (t.follow [] pieces.dropLast >>= fun directory =>
      t.step directory (pieces.getLastD [])) := by
  have hsplit := eq_dropLast_append (pieces_ne_nil h)
  unfold resolve
  rw [h]
  change t.follow [] pieces = _
  conv_lhs => rw [hsplit, follow_append]
  congr 1
  funext directory
  unfold follow
  rcases t.step directory (pieces.getLastD []) with fault | place
  · rfl
  · rfl

theorem resolve_eq_ok (h : t.resolve p = .ok place) :
    p.text ≠ "" ∧ '\x00' ∉ p.text.toList ∧ t.follow [] p.pieces = .ok place := by
  unfold resolve FileTree.pieces at h
  split_ifs at h with hnul hempty hsize
  · cases h
  · cases h
  · cases h
  · exact ⟨hempty, fun hmem => hnul (List.contains_iff_mem.mpr hmem), h⟩

/-- A path that stands for a file leads to its place if there is anything. -/
theorem resolve_of_target? (h : t.target? p = some place) :
    t.resolve p = if (t.entry? place).isSome then .ok place else .error .notFound := by
  obtain ⟨pieces, directory, last, hpieces, -, rfl, hfollow, hdirectory, hname, hfits, rfl, -⟩ :=
    target?_eq_some h
  rw [resolve_eq hpieces, hfollow]
  exact step_of_isName hdirectory hname hfits

/-! ## Well-formed trees -/

/-- Whatever has an entry lies in directories, and no name has a slash in it. -/
structure Proper (t : FileTree) : Prop where
  parent : ∀ place name, place ++ [name] ∈ t.entries.keys → t.isDirectoryAt place
  names : ∀ place ∈ t.entries.keys, ∀ name ∈ place, '/' ∉ name.toList

theorem mem_keys_of_isSome (h : (t.entry? place).isSome) (hne : place ≠ []) :
    place ∈ t.entries.keys := by
  unfold entry? at h
  rw [if_neg hne] at h
  exact (Dict.mem_keys_iff _ _).mpr h

namespace Proper

theorem empty : Proper {} := ⟨fun _ _ h => (nomatch h), fun _ h => (nomatch h)⟩

/-- Whatever there is above an entry is a directory. -/
theorem isDirectoryAt_above (h : t.Proper) {rest : List String} (hrest : rest ≠ [])
    (hmem : place ++ rest ∈ t.entries.keys) : t.isDirectoryAt place := by
  induction rest using List.reverseRecOn with
  | nil => exact absurd rfl hrest
  | append_singleton rest name ih =>
    rw [← List.append_assoc] at hmem
    have hparent := h.parent _ _ hmem
    by_cases hnil : rest = []
    · simpa [hnil] using hparent
    · refine ih hnil (mem_keys_of_isSome (isSome_of_isDirectoryAt hparent) ?_)
      simp [hnil]

theorem isDirectoryAt_dropLast (h : t.Proper) (hdirectory : t.isDirectoryAt place) :
    t.isDirectoryAt place.dropLast := by
  rcases List.eq_nil_or_concat place with rfl | ⟨above, name, rfl⟩
  · exact hdirectory
  · have hmem := mem_keys_of_isSome (isSome_of_isDirectoryAt hdirectory) (by simp)
    simpa using h.parent _ _ (by simpa using hmem)

end Proper

/-! ## Reading -/

/-- What the file at a place holds. -/
def content? (t : FileTree) (place : List String) : Option Content :=
  match t.entry? place with
  | some (.file content _) => some content
  | _ => none

theorem mem_keys_of_content? {content : Content} (h : t.content? place = some content) :
    place ∈ t.entries.keys := by
  unfold content? at h
  split at h
  next content modified hentry =>
    refine mem_keys_of_isSome (by simp [hentry]) ?_
    rintro rfl
    cases hentry
  next => cases h

/-- Two trees have the same files wherever they have them at the places that either one lists. -/
theorem content?_eq_of_keys {u : FileTree} (h : place ∈ t.entries.keys ++ u.entries.keys →
    t.content? place = u.content? place) : t.content? place = u.content? place := by
  rcases ht : t.content? place with _ | content
  · rcases hu : u.content? place with _ | content
    · rfl
    · rw [← ht, h (List.mem_append_right _ (mem_keys_of_content? hu)), hu]
  · rw [← ht, h (List.mem_append_left _ (mem_keys_of_content? ht))]

theorem lookup_of_target? (h : t.target? p = some place) :
    t.lookup p = match t.entry? place with
      | some entry => .ok entry
      | none => .error .notFound := by
  unfold lookup
  rw [resolve_of_target? h]
  cases hentry : t.entry? place with
  | none => rfl
  | some entry =>
    simp only [Option.isSome_some, ↓reduceIte]
    change (match t.entry? place with | some entry => _ | none => _) = _
    rw [hentry]
    rfl

theorem lookup_eq_file (ht : t.Proper) {content : Content} {modified : Moment}
    (h : t.lookup p = .ok (.file content modified)) :
    ∃ place, t.target? p = some place ∧ t.entry? place = some (.file content modified) := by
  unfold lookup at h
  rcases hresolve : t.resolve p with fault | place
  · rw [hresolve] at h
    cases h
  rw [hresolve] at h
  have hentry : t.entry? place = some (.file content modified) := by
    change (match t.entry? place with | some entry => _ | none => _) = _ at h
    split at h
    next entry hentry =>
      cases h
      exact hentry
    next => cases h
  have hnot : t.isDirectoryAt place = false := by
    unfold isDirectoryAt
    rw [hentry]
  refine ⟨place, ?_, hentry⟩
  rcases hpieces : FileTree.pieces p with fault | pieces
  · rw [resolve, hpieces] at hresolve
    cases hresolve
  rw [resolve_eq hpieces] at hresolve
  rcases hfollow : t.follow [] pieces.dropLast with fault | directory
  · rw [hfollow] at hresolve
    cases hresolve
  rw [hfollow] at hresolve
  change t.step directory _ = _ at hresolve
  obtain ⟨hdirectory, hplace⟩ := step_eq_ok hresolve
  have hopens := opens_iff.mpr ⟨directory, hfollow, hdirectory⟩
  -- Without a name at its end a path leads to directories only.
  have hname : Path.isName (pieces.getLastD []) := by
    by_contra hname
    have hup : t.isDirectoryAt place := by
      rw [hplace]
      unfold advance nameOf
      split
      next => exact hdirectory
      next name hsome =>
        split_ifs with hdots
        · exact ht.isDirectoryAt_dropLast hdirectory
        · split_ifs at hsome with hvacuous
          refine absurd (Path.isName_iff.mpr ⟨hvacuous, fun heq => hdots ?_⟩) hname
          rw [← Option.some.inj hsome, heq]
    rw [hnot] at hup
    cases hup
  have hfold : pieces.foldl advance [] = place := by
    conv_lhs => rw [eq_dropLast_append (pieces_ne_nil hpieces)]
    rw [List.foldl_append, ← follow_eq_ok hfollow, hplace]
    rfl
  unfold target?
  simp only [hpieces, hopens, hname, fits_of_step (.inl ⟨_, hresolve⟩), hfold, hnot, Bool.not_false,
    Bool.and_self, ↓reduceIte]

theorem isFile_iff (ht : t.Proper) :
    t.isFile p ↔ ∃ place, t.target? p = some place ∧ (t.content? place).isSome := by
  constructor
  · intro h
    unfold isFile at h
    split at h
    next content modified hlookup =>
      obtain ⟨place, htarget, hentry⟩ := lookup_eq_file ht hlookup
      exact ⟨place, htarget, by simp [content?, hentry]⟩
    next => cases h
  · rintro ⟨place, htarget, hcontent⟩
    unfold content? at hcontent
    split at hcontent
    next content modified hentry =>
      unfold isFile
      rw [lookup_of_target? htarget, hentry]
    next => cases hcontent

/-- What is read by a path is what the file at its place holds. -/
theorem read_toOption (ht : t.Proper) (p : Path) :
    (t.read p).toOption = ((t.target? p).bind t.content?).map Content.data := by
  unfold read content
  rcases hlookup : t.lookup p with fault | ⟨modified⟩ | ⟨content, modified⟩
  · rcases htarget : t.target? p with _ | place
    · rfl
    · rw [lookup_of_target? htarget] at hlookup
      split at hlookup
      next => cases hlookup
      next hentry => simp [content?, hentry, Except.toOption, bind, Except.bind]
  · rcases htarget : t.target? p with _ | place
    · rfl
    · rw [lookup_of_target? htarget] at hlookup
      split at hlookup
      next entry hentry =>
        cases hlookup
        simp [content?, hentry, Except.toOption, bind, Except.bind, throw, throwThe,
          MonadExceptOf.throw]
      next => cases hlookup
  · obtain ⟨place, htarget, hentry⟩ := lookup_eq_file ht hlookup
    simp [htarget, content?, hentry, Except.toOption, bind, Except.bind, pure, Except.pure]

end Rebuild.FileTree
