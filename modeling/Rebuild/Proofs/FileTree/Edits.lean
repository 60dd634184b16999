import Mathlib
import Rebuild.Proofs.FileTree.Places

/-! What edits do to the directories and to the files of a tree. Main statements: writing a file
makes directories at known places only, and changes the file at one place; so does deleting one. -/
namespace Rebuild.FileTree

variable {t t' : FileTree} {place : List String} {p : Path}

/-! ## Single entries -/

theorem content?_touchDirectory (t : FileTree) (directory q : List String) :
    (t.touchDirectory directory).content? q = t.content? q := by
  unfold content? entry? touchDirectory
  simp only [Dict.get?_modify]
  split_ifs with hroot hq
  · rfl
  · rcases t.entries.get? q with _ | ⟨modified⟩ | ⟨content, modified⟩ <;> rfl
  · rfl

theorem isDirectoryAt_touchDirectory (t : FileTree) (directory q : List String) :
    (t.touchDirectory directory).isDirectoryAt q = t.isDirectoryAt q := by
  unfold isDirectoryAt entry? touchDirectory
  simp only [Dict.get?_modify]
  split_ifs with hroot hq
  · rfl
  · rcases t.entries.get? q with _ | ⟨modified⟩ | ⟨content, modified⟩ <;> rfl
  · rfl

theorem keys_touchDirectory (t : FileTree) (directory : List String) :
    (t.touchDirectory directory).entries.keys = t.entries.keys :=
  Dict.keys_modify _ _ _

variable {directory : List String} {name : String}

theorem entry?_put (entries : Dict (List String) Entry) (now : Moment) (entry : Entry)
    (q : List String) : entry? { entries := entries.put (directory ++ [name]) entry, now } q =
      if q = directory ++ [name] then some entry else entry? { entries, now } q := by
  unfold entry?
  simp only [Dict.get?_put]
  by_cases hq : q = directory ++ [name]
  · simp [hq]
  · simp [hq, Ne.symm hq]

theorem content?_putChild (t : FileTree) (entry : Entry) (q : List String) :
    (t.putChild directory name entry).content? q =
      if q = directory ++ [name] then
        match entry with
        | .file content _ => some content
        | .directory _ => none
      else t.content? q := by
  change content? (touchDirectory _ _) q = _
  rw [content?_touchDirectory]
  unfold content?
  rw [entry?_put]
  split_ifs
  · cases entry <;> rfl
  · rfl

theorem isDirectoryAt_putChild (t : FileTree) (entry : Entry) (q : List String) :
    (t.putChild directory name entry).isDirectoryAt q =
      if q = directory ++ [name] then
        match entry with
        | .file _ _ => false
        | .directory _ => true
      else t.isDirectoryAt q := by
  change isDirectoryAt (touchDirectory _ _) q = _
  rw [isDirectoryAt_touchDirectory]
  unfold isDirectoryAt
  rw [entry?_put]
  split_ifs
  · cases entry <;> rfl
  · rfl

theorem mem_keys_putChild (t : FileTree) (entry : Entry) (q : List String) :
    q ∈ (t.putChild directory name entry).entries.keys ↔
      q = directory ++ [name] ∨ q ∈ t.entries.keys := by
  change q ∈ (touchDirectory _ _).entries.keys ↔ _
  rw [keys_touchDirectory, Dict.mem_keys_put]

/-- What all names in a tree have in common stays so if the name of the new entry has it too. -/
theorem names_putChild {P : String → Prop} (h : ∀ q ∈ t.entries.keys, ∀ other ∈ q, P other)
    (hdirectory : t.isDirectoryAt directory) (hname : P name) {entry : Entry} {q : List String}
    (hq : q ∈ (t.putChild directory name entry).entries.keys) {other : String} (hother : other ∈ q) :
    P other := by
  rcases (mem_keys_putChild t entry q).mp hq with rfl | hold
  · rcases List.mem_append.mp hother with habove | hlast
    · have hroot : directory ≠ [] := List.ne_nil_of_mem habove
      exact h directory (mem_keys_of_isSome (isSome_of_isDirectoryAt hdirectory) hroot) other habove
    · rw [List.mem_singleton.mp hlast]
      exact hname
  · exact h q hold other hother

namespace Proper

/-- A directory is not replaced by a file. -/
theorem putChild (h : t.Proper) {entry : Entry} (hdirectory : t.isDirectoryAt directory)
    (hname : '/' ∉ name.toList)
    (hkind : t.isDirectoryAt (directory ++ [name]) → ∃ modified, entry = .directory modified) :
    (t.putChild directory name entry).Proper := by
  have hmono (q : List String) (hq : t.isDirectoryAt q) :
      (t.putChild directory name entry).isDirectoryAt q := by
    rw [isDirectoryAt_putChild]
    split_ifs with heq
    · obtain ⟨modified, rfl⟩ := hkind (heq ▸ hq)
      rfl
    · exact hq
  refine ⟨fun above other hmem => hmono above ?_,
    fun q hq other => names_putChild h.names hdirectory hname hq⟩
  rcases (mem_keys_putChild t entry _).mp hmem with heq | hold
  · obtain ⟨rfl, -⟩ := List.append_inj' heq rfl
    exact hdirectory
  · exact h.parent above other hold

end Proper

/-! ## Making directories -/

theorem step_eq_notFound {piece : List Char} (h : t.step place piece = .error .notFound) :
    t.isDirectoryAt place ∧ Path.isName piece ∧
      t.entry? (place ++ [String.ofList piece]) = none := by
  unfold step at h
  split at h
  next => cases h
  next hdirectory =>
    have hplace : t.isDirectoryAt place := by simpa using hdirectory
    split at h
    next => cases h
    next name hname =>
      split_ifs at h with hup hlong hentry <;> cases h
      unfold nameOf at hname
      split_ifs at hname with hvacuous
      obtain rfl := Option.some.inj hname
      refine ⟨hplace, Path.isName_iff.mpr ⟨hvacuous, ?_⟩, by simpa using hentry⟩
      rintro rfl
      exact hup rfl

/-- Where a directory is made. -/
def madePlace (p : Path) : List String := (Path.trimSlashes p.pieces).foldl advance []

theorem makeSingle_eq_ok (h : t.makeSingle p = .ok t') :
    ∃ directory name modified, t' = t.putChild directory name (.directory modified) ∧
      t.isDirectoryAt directory ∧ IsEntryName name ∧ t.entry? (directory ++ [name]) = none ∧
      directory ++ [name] = madePlace p := by
  unfold makeSingle at h
  rcases hpieces : FileTree.pieces p with fault | pieces
  · rw [hpieces] at h
    cases h
  rw [hpieces] at h
  change ((t.follow [] (Path.trimSlashes pieces).dropLast >>= fun directory => _) = _) at h
  rcases hfollow : t.follow [] (Path.trimSlashes pieces).dropLast with fault | directory
  · rw [hfollow] at h
    cases h
  simp only [hfollow, bind, Except.bind] at h
  split at h
  next => cases h
  next hstep =>
    cases h
    obtain ⟨hdirectory, hname, hentry⟩ := step_eq_notFound hstep
    have hne : Path.trimSlashes pieces ≠ [] := by
      intro hnil
      rw [hnil] at hname
      cases hname
    have hsplit := eq_dropLast_append hne
    have hmem : (Path.trimSlashes pieces).getLastD [] ∈ pieces := by
      have hlast := List.mem_reverse.mp (getLastD_mem hne)
      exact List.mem_reverse.mp ((List.dropWhile_sublist _).subset hlast)
    refine ⟨directory, _, _, rfl, hdirectory, ?_, hentry, ?_⟩
    · exact isEntryName_of_mem hpieces hmem hname (fits_of_step (.inr hstep))
    · rw [← advance_of_isName hname, follow_eq_ok hfollow, madePlace, ← pieces_eq_ok hpieces]
      conv_rhs => rw [hsplit, List.foldl_append]
      rfl
  next => cases h

/-- A tree with the same files and more directories, each at one of some places. -/
structure Extends (places : List (List String)) (t t' : FileTree) : Prop where
  contents : ∀ q, t'.content? q = t.content? q
  directories : ∀ q, t.isDirectoryAt q → t'.isDirectoryAt q
  made : ∀ q, t'.isDirectoryAt q → t.isDirectoryAt q ∨ q ∈ places

namespace Extends

variable {places more : List (List String)} {t'' : FileTree}

theorem refl (places : List (List String)) (t : FileTree) : Extends places t t :=
  ⟨fun _ => rfl, fun _ h => h, fun _ h => .inl h⟩

theorem trans (h : Extends places t t') (h' : Extends places t' t'') : Extends places t t'' :=
  ⟨fun q => (h'.contents q).trans (h.contents q), fun q hq => h'.directories q (h.directories q hq),
    fun q hq => (h'.made q hq).elim (h.made q) .inr⟩

theorem subset (h : Extends places t t') (hmore : places ⊆ more) : Extends more t t' :=
  ⟨h.contents, h.directories, fun q hq => (h.made q hq).imp_right fun hq => hmore hq⟩

end Extends

theorem makeSingle_extends (ht : t.Proper) (h : t.makeSingle p = .ok t') :
    Extends [madePlace p] t t' ∧ t'.Proper := by
  obtain ⟨directory, name, modified, rfl, hdirectory, hname, hentry, hplace⟩ := makeSingle_eq_ok h
  refine ⟨⟨fun q => ?_, fun q hq => ?_, fun q hq => ?_⟩, ?_⟩
  · rw [content?_putChild]
    split_ifs with hq
    · rw [hq, content?, hentry]
    · rfl
  · rw [isDirectoryAt_putChild]
    split_ifs
    · rfl
    · exact hq
  · rw [isDirectoryAt_putChild] at hq
    split_ifs at hq with heq
    · exact .inr (List.mem_singleton.mpr (heq.trans hplace))
    · exact .inl hq
  · exact ht.putChild hdirectory hname.no_slash fun _ => ⟨modified, rfl⟩

/-- Where a directory and those above it are made. -/
def madePlaces : Nat → Path → List (List String)
  | 0, _ => []
  | n + 1, p => madePlace p :: ((p.parent?.map (madePlaces n)).getD [])

theorem makeWithin_extends (n : Nat) (ht : t.Proper) (p : Path) :
    Extends (madePlaces n p) t (t.makeWithin n p).2 ∧ (t.makeWithin n p).2.Proper := by
  have hself {m : Nat} {q : Path} {u u' : FileTree} (hu : u.Proper)
      (h : u.makeSingle q = .ok u') : Extends (madePlaces (m + 1) q) u u' ∧ u'.Proper := by
    obtain ⟨hextends, hproper⟩ := makeSingle_extends hu h
    exact ⟨hextends.subset (by simp [madePlaces]), hproper⟩
  induction n generalizing t p with
  | zero => exact ⟨Extends.refl _ t, ht⟩
  | succ n ih =>
    unfold makeWithin
    split_ifs
    · exact ⟨Extends.refl _ t, ht⟩
    split
    next t' _ hmade => exact hself ht hmade
    next parent _ hparent =>
      obtain ⟨habove, hproper⟩ := ih ht parent
      have hextends : Extends (madePlaces (n + 1) p) t (t.makeWithin n parent).2 :=
        habove.subset (by simp [madePlaces, hparent])
      split
      next t₁ hwithin =>
        rw [hwithin] at hextends hproper
        exact ⟨hextends, hproper⟩
      next t₁ hwithin =>
        rw [hwithin] at hextends hproper
        split
        next t₂ hmade =>
          obtain ⟨hlast, hproper₂⟩ := hself (m := n) hproper hmade
          exact ⟨hextends.trans hlast, hproper₂⟩
        next => exact ⟨hextends, hproper⟩
    next => exact ⟨Extends.refl _ t, ht⟩
    next => exact ⟨Extends.refl _ t, ht⟩

/-! ## Writing -/

theorem putFile_eq {content : Content} {pieces : List (List Char)} {directory : List String}
    (hpieces : FileTree.pieces p = .ok pieces)
    (hfollow : t.follow [] pieces.dropLast = .ok directory) :
    t.putFile p content =
      let last := pieces.getLastD []
      let written := t.putChild directory (String.ofList last) (.file content t.now)
      if !Path.isName last then .error .isADirectory
      else match t.step directory last with
        | .ok place => if t.isDirectoryAt place then .error .isADirectory else .ok written
        | .error .notFound => .ok written
        | .error fault => .error fault := by
  unfold putFile
  rw [hpieces]
  change (t.follow [] pieces.dropLast >>= fun directory => _) = _
  rw [hfollow]
  simp only [bind, Except.bind]
  split_ifs
  · rfl
  · rcases t.step directory (pieces.getLastD []) with fault | place
    · cases fault <;> rfl
    · change (if _ then _ else _) = if _ then _ else _
      split_ifs <;> rfl

theorem putFile_of_target? (content : Content) (h : t.target? p = some place) :
    ∃ directory name, place = directory ++ [name] ∧ t.isDirectoryAt directory ∧
      IsEntryName name ∧
      t.putFile p content = .ok (t.putChild directory name (.file content t.now)) := by
  obtain ⟨pieces, directory, last, hpieces, hsplit, rfl, hfollow, hdirectory, hname, hfits, rfl,
    hnot⟩ := target?_eq_some h
  refine ⟨directory, _, rfl, hdirectory, ?_, ?_⟩
  · exact isEntryName_of_mem hpieces (getLastD_mem (pieces_ne_nil hpieces)) hname hfits
  · simp only [putFile_eq hpieces hfollow, step_of_isName hdirectory hname hfits, hname,
      Bool.not_true, Bool.false_eq_true, ↓reduceIte]
    split_ifs with hentry
    · simp only [hnot, Bool.false_eq_true, ↓reduceIte]
    · rfl

theorem putFile_of_not_target? (content : Content) (h : t.target? p = none) :
    ∃ fault, t.putFile p content = .error fault := by
  rcases hpieces : FileTree.pieces p with fault | pieces
  · exact ⟨fault, by unfold putFile; rw [hpieces]; rfl⟩
  rcases hfollow : t.follow [] pieces.dropLast with fault | directory
  · refine ⟨fault, ?_⟩
    unfold putFile
    rw [hpieces]
    change (t.follow [] pieces.dropLast >>= fun directory => _) = _
    rw [hfollow]
    rfl
  rw [putFile_eq hpieces hfollow]
  by_cases hname : Path.isName (pieces.getLastD [])
  · simp only [hname, Bool.not_true, Bool.false_eq_true, ↓reduceIte]
    -- Where a file could be put the path has a target, unless a directory is there.
    have hblocked (hdirectory : t.isDirectoryAt directory) (hfits : fits (pieces.getLastD [])) :
        t.isDirectoryAt (directory ++ [String.ofList (pieces.getLastD [])]) := by
      have hopens := opens_iff.mpr ⟨directory, hfollow, hdirectory⟩
      have hfold : pieces.foldl advance [] =
          directory ++ [String.ofList (pieces.getLastD [])] := by
        conv_lhs => rw [eq_dropLast_append (pieces_ne_nil hpieces), List.foldl_append,
          ← follow_eq_ok hfollow]
        exact advance_of_isName hname
      by_contra hnot
      rw [Bool.not_eq_true] at hnot
      unfold target? at h
      simp only [hpieces, hopens, hname, hfits, hfold, hnot, Bool.not_false, Bool.and_self,
        ↓reduceIte, reduceCtorEq] at h
    split
    next place hstep =>
      obtain ⟨hdirectory, rfl⟩ := step_eq_ok hstep
      rw [advance_of_isName hname, hblocked hdirectory (fits_of_step (.inl ⟨_, hstep⟩))]
      exact ⟨_, rfl⟩
    next hstep =>
      obtain ⟨hdirectory, -, hentry⟩ := step_eq_notFound hstep
      have hsome := isSome_of_isDirectoryAt (hblocked hdirectory (fits_of_step (.inr hstep)))
      rw [hentry] at hsome
      cases hsome
    next fault _ _ => exact ⟨fault, rfl⟩
  · simp only [hname, Bool.not_false, ↓reduceIte]
    exact ⟨_, rfl⟩

/-- Where directories are made when a file is written. -/
def writtenPlaces (p : Path) : List (List String) :=
  (p.parent?.map fun parent => madePlaces (parent.pieces.length + 2) parent).getD []

/-- The tree to which a file is written: the directories around the file are made as far as they
can be. -/
def readied (t : FileTree) (p : Path) : FileTree :=
  match p.parent? with
  | some parent => (t.makeDirectory parent).2
  | none => t

theorem write_eq (t : FileTree) (p : Path) (content : Content) : t.write p content =
    match (t.readied p).putFile p content with
    | .ok t => t
    | .error _ => t.readied p := rfl

theorem readied_extends (ht : t.Proper) (p : Path) :
    Extends (writtenPlaces p) t (t.readied p) ∧ (t.readied p).Proper := by
  unfold readied writtenPlaces
  rcases p.parent? with _ | parent
  · exact ⟨Extends.refl _ t, ht⟩
  · exact makeWithin_extends _ ht parent

/-- First directories are made, then the file is put at its place, if it has one by then. -/
theorem write_spec (ht : t.Proper) (p : Path) (content : Content) :
    ∃ t₁, Extends (writtenPlaces p) t t₁ ∧ t₁.SameDirectories (t.write p content) ∧
      (t.write p content).Proper ∧
      ∀ q, (t.write p content).content? q =
        if t₁.target? p = some q then some content else t.content? q := by
  obtain ⟨hextends, hproper⟩ := readied_extends ht p
  have hwrite := write_eq t p content
  generalize t.readied p = t₁ at hextends hproper hwrite
  refine ⟨t₁, hextends, ?_⟩
  rcases htarget : t₁.target? p with _ | place
  · obtain ⟨fault, hput⟩ := putFile_of_not_target? content htarget
    rw [hwrite, hput]
    exact ⟨SameDirectories.refl t₁, hproper, fun q => hextends.contents q⟩
  · obtain ⟨directory, name, rfl, hdirectory, hname, hput⟩ :=
      putFile_of_target? content htarget
    obtain ⟨_, _, _, -, -, -, -, -, -, -, -, hnot⟩ := target?_eq_some htarget
    rw [hwrite, hput]
    refine ⟨fun q => ?_, hproper.putChild hdirectory hname.no_slash fun h => ?_, fun q => ?_⟩
    · rw [isDirectoryAt_putChild]
      split_ifs with hq
      · rw [hq, hnot]
      · rfl
    · rw [hnot] at h
      cases h
    · rw [content?_putChild, ← hextends.contents q]
      simp only [Option.some.injEq, eq_comm]

/-! ## Deleting -/

theorem below?_eq_some_iff {base place rest : List String} :
    below? base place = some rest ↔ place = base ++ rest := by
  induction base generalizing place with
  | nil => simp [below?, eq_comm]
  | cons a base ih =>
    cases place with
    | nil => simp [below?]
    | cons b place =>
      unfold below?
      split_ifs with heq
      · simp [ih, heq]
      · simp [Ne.symm heq]

theorem isSome_below? {base place : List String} :
    (below? base place).isSome ↔ base <+: place := by
  simp only [Option.isSome_iff_exists, below?_eq_some_iff]
  exact ⟨fun ⟨rest, h⟩ => ⟨rest, h.symm⟩, fun ⟨rest, h⟩ => ⟨rest, h.symm⟩⟩

theorem entry?_filterKeys (entries : Dict (List String) Entry) (now : Moment)
    (removed : List String → Bool) (q : List String) (hq : q ≠ []) :
    entry? { entries := entries.filterKeys fun place => !removed place, now } q =
      if removed q then none else entry? { entries, now } q := by
  unfold entry?
  rw [if_neg hq, if_neg hq, Dict.get?_filterKeys]
  cases removed q <;> rfl

theorem content?_erase (t : FileTree) (directory : List String) (removed : List String → Bool)
    (q : List String) : (t.erase directory removed).content? q =
      if removed q then none else t.content? q := by
  change content? (touchDirectory _ _) q = _
  rw [content?_touchDirectory]
  by_cases hq : q = []
  · subst hq
    split_ifs <;> rfl
  · unfold content?
    rw [entry?_filterKeys _ _ _ _ hq]
    split_ifs <;> rfl

theorem isDirectoryAt_erase (t : FileTree) (directory : List String)
    (removed : List String → Bool) (q : List String) (hq : q ≠ []) :
    (t.erase directory removed).isDirectoryAt q =
      if removed q then false else t.isDirectoryAt q := by
  change isDirectoryAt (touchDirectory _ _) q = _
  rw [isDirectoryAt_touchDirectory]
  unfold isDirectoryAt
  rw [entry?_filterKeys _ _ _ _ hq]
  split_ifs <;> rfl

theorem mem_keys_erase (t : FileTree) (directory : List String) (removed : List String → Bool)
    (q : List String) : q ∈ (t.erase directory removed).entries.keys ↔
      q ∈ t.entries.keys ∧ removed q = false := by
  change q ∈ (touchDirectory _ _).entries.keys ↔ _
  rw [keys_touchDirectory, Dict.mem_keys_filterKeys, Bool.not_eq_true']

/-- What is below something that is removed is removed too. -/
theorem Proper.erase (h : t.Proper) (directory : List String) {removed : List String → Bool}
    (hremoved : ∀ place name, removed place → removed (place ++ [name])) :
    (t.erase directory removed).Proper := by
  refine ⟨fun place name hmem => ?_, fun q hq => ?_⟩
  · obtain ⟨hold, hkept⟩ := (mem_keys_erase t directory removed _).mp hmem
    by_cases hroot : place = []
    · rw [hroot]
      rfl
    · rw [isDirectoryAt_erase _ _ _ _ hroot]
      split_ifs with hplace
      · rw [hremoved place name hplace] at hkept
        cases hkept
      · exact h.parent place name hold
  · exact h.names q ((mem_keys_erase t directory removed q).mp hq).1

theorem Proper.delete (h : t.Proper) (p : Path) : (t.delete p).2.Proper := by
  unfold FileTree.delete
  split
  next => exact h
  next place hplace =>
    split_ifs
    · refine h.erase _ fun above name habove => ?_
      rw [isSome_below?] at habove ⊢
      exact habove.trans (List.prefix_append _ _)
    · refine h.erase _ fun above name habove => ?_
      simp only [Bool.and_eq_true, decide_eq_true_eq, isSome_below?] at habove ⊢
      refine ⟨fun heq => ?_, habove.2.trans (List.prefix_append _ _)⟩
      have hlength := habove.2.length_le
      rw [← heq, List.length_append] at hlength
      simp at hlength

/-- A path that ends in a name has no slashes at its end. -/
theorem trimSlashes_of_isName {pieces : List (List Char)}
    (h : Path.isName (pieces.getLastD [])) : Path.trimSlashes pieces = pieces := by
  rcases List.eq_nil_or_concat pieces with rfl | ⟨front, last, rfl⟩
  · rfl
  · have hne : last ≠ [] := by
      rintro rfl
      simp [Path.isName, Path.isVacuous] at h
    simp [Path.trimSlashes, hne]

/-- Deleting a file takes away the file at its place, and nothing else. -/
theorem deleteFile_spec (ht : t.Proper) (p : Path) :
    t.SameDirectories (t.deleteFile p) ∧ (t.deleteFile p).Proper ∧
      ∀ q, (t.deleteFile p).content? q =
        if t.target? p = some q then none else t.content? q := by
  unfold deleteFile
  split
  next hfile =>
    obtain ⟨place, htarget, hcontent⟩ := (isFile_iff ht).mp hfile
    obtain ⟨pieces, directory, last, hpieces, hsplit, rfl, -, -, hname, -, hplace, hnot⟩ :=
      target?_eq_some htarget
    have hentry : (t.entry? place).isSome := by
      unfold content? at hcontent
      split at hcontent
      next _ _ hentry => simp [hentry]
      next => cases hcontent
    have hresolve : t.resolve p = .ok place := by
      rw [resolve_of_target? htarget, if_pos hentry]
    have hdelete : (t.delete p).2 =
        t.erase place.dropLast fun other => (below? place other).isSome := by
      unfold FileTree.delete
      rw [hresolve, ← pieces_eq_ok hpieces]
      simp only [trimSlashes_of_isName hname, hname, ↓reduceIte]
    -- Nothing is below a file.
    have honly (q : List String) (hq : place <+: q) : q = place ∨ t.entry? q = none := by
      obtain ⟨rest, rfl⟩ := hq
      by_cases hrest : rest = []
      · simp [hrest]
      · refine .inr ?_
        by_contra hsome
        have hmem := mem_keys_of_isSome (Option.isSome_iff_ne_none.mpr hsome) (by simp [hrest])
        rw [ht.isDirectoryAt_above hrest hmem] at hnot
        cases hnot
    refine ⟨fun q => ?_, ht.delete p, fun q => ?_⟩
    · rw [hdelete]
      by_cases hroot : q = []
      · rw [hroot]
        rfl
      · rw [isDirectoryAt_erase _ _ _ _ hroot]
        split_ifs with hbelow
        · rcases honly q (isSome_below?.mp hbelow) with rfl | hnone
          · exact hnot
          · rw [isDirectoryAt, hnone]
        · rfl
    · rw [hdelete, content?_erase, htarget]
      by_cases hq : place = q
      · subst hq
        rw [if_pos (isSome_below?.mpr (List.prefix_refl _)), if_pos rfl]
      · simp only [Option.some.injEq, hq, ↓reduceIte]
        split_ifs with hbelow
        · rcases honly q (isSome_below?.mp hbelow) with rfl | hnone
          · exact absurd rfl hq
          · rw [content?, hnone]
        · rfl
  next hfile =>
    refine ⟨SameDirectories.refl t, ht, fun q => ?_⟩
    split_ifs with htarget
    · by_contra hcontent
      refine hfile ((isFile_iff ht).mpr ⟨q, htarget, ?_⟩)
      exact Option.isSome_iff_ne_none.mpr hcontent
    · rfl

/-! ## Listing -/

theorem mem_list? {name : String} : (∃ names, t.list? p = some names ∧ name ∈ names) ↔
    ∃ place, t.resolve p = .ok place ∧ t.isDirectoryAt place ∧
      place ++ [name] ∈ t.entries.keys := by
  unfold list?
  rcases t.resolve p with fault | place
  · simp
  · by_cases hdirectory : t.isDirectoryAt place
    · simp only [hdirectory, ↓reduceIte, Option.some.injEq, Except.ok.injEq, exists_eq_left',
        List.mem_filterMap, true_and]
      constructor
      · rintro ⟨other, hother, hname⟩
        split at hname
        next found hbelow =>
          rw [below?_eq_some_iff.mp hbelow] at hother
          rwa [← Option.some.inj hname]
        next => cases hname
      · intro hmem
        exact ⟨_, hmem, by rw [below?_eq_some_iff.mpr rfl]⟩
    · simp [hdirectory]

/-- The pieces of an entry of a directory: those of the directory, and its name. -/
theorem pieces_join {name : String} (hne : p.text ≠ "") (hname : '/' ∉ name.toList) :
    ∃ front, (p.join ⟨name⟩).pieces = front ++ [name.toList] ∧
      front.foldl advance [] = p.pieces.foldl advance [] := by
  have hrelative : (⟨name⟩ : Path).isAbsolute = false := Path.isAbsolute_of_not_mem hname
  obtain ⟨-, front, hpieces, hfront⟩ := Path.pieces_join hne hrelative
  refine ⟨front, ?_, ?_⟩
  · rw [hpieces, Path.pieces_of_not_mem hname]
  · rcases hfront with rfl | hfront
    · rfl
    · rw [hfront, List.foldl_append]
      rfl

theorem target?_join {name : String} {directory : List String} (hname : '/' ∉ name.toList)
    (hdirectory : t.resolve p = .ok directory) (h : t.target? (p.join ⟨name⟩) = some place) :
    place = directory ++ [name] := by
  obtain ⟨hne, -, hfollow⟩ := resolve_eq_ok hdirectory
  obtain ⟨front, hjoin, hfront⟩ := pieces_join hne hname
  obtain ⟨pieces, above, last, hpieces', hsplit, hlast, habove, -, -, -, rfl, -⟩ :=
    target?_eq_some h
  have hpieces_eq := pieces_eq_ok hpieces'
  rw [hjoin] at hpieces_eq
  subst hpieces_eq
  rw [List.dropLast_concat] at habove
  rw [follow_eq_ok habove, hfront, ← follow_eq_ok hfollow, ← hlast]
  simp

end Rebuild.FileTree
