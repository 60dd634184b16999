import Mathlib
import Rebuild.Proofs.FileTree.Agreement

/-! Names in a tree, and the words of the paths that lead to them. Main statements: edits put
entries under names that paths can have, and every path with the words of a file that was found leads
to the file. -/
namespace Rebuild.FileTree

variable {t t' : FileTree} {place directory names : List String} {name : String} {p : Path}
  {piece : List Char} {pieces : List (List Char)}

/-! ## Orderly trees -/

/-- Entries stand at places of their own, below the root, under names that an entry can have. -/
structure Orderly (t : FileTree) : Prop where
  nodup : t.entries.keys.Nodup
  ne_root : [] ∉ t.entries.keys
  names : ∀ place ∈ t.entries.keys, ∀ name ∈ place, IsEntryName name

namespace Orderly

theorem empty : Orderly {} := ⟨List.nodup_nil, nofun, fun _ h => (nomatch h)⟩

theorem putChild (h : t.Orderly) (hdirectory : t.isDirectoryAt directory) (hname : IsEntryName name)
    (entry : Entry) : (t.putChild directory name entry).Orderly := by
  refine ⟨?_, fun hroot => ?_, fun q hq other => names_putChild h.names hdirectory hname hq⟩
  · change (touchDirectory _ _).entries.keys.Nodup
    rw [keys_touchDirectory]
    exact Dict.nodup_keys_put h.nodup _ _
  · rcases (mem_keys_putChild t entry _).mp hroot with heq | hold
    · simp at heq
    · exact h.ne_root hold

theorem erase (h : t.Orderly) (directory : List String) (removed : List String → Bool) :
    (t.erase directory removed).Orderly := by
  refine ⟨?_, fun hroot => ?_, fun q hq => ?_⟩
  · change (touchDirectory _ _).entries.keys.Nodup
    rw [keys_touchDirectory]
    exact h.nodup.sublist (List.filter_sublist.map Prod.fst)
  · exact h.ne_root ((mem_keys_erase t directory removed []).mp hroot).1
  · exact h.names q ((mem_keys_erase t directory removed q).mp hq).1

theorem makeSingle (h : t.Orderly) (hmade : t.makeSingle p = .ok t') : t'.Orderly := by
  obtain ⟨directory, name, modified, rfl, hdirectory, hname, -⟩ := makeSingle_eq_ok hmade
  exact h.putChild hdirectory hname _

theorem makeWithin (h : t.Orderly) (n : Nat) (p : Path) : (t.makeWithin n p).2.Orderly := by
  induction n generalizing t p with
  | zero => exact h
  | succ n ih =>
    unfold FileTree.makeWithin
    split_ifs
    · exact h
    split
    next hmade => exact h.makeSingle hmade
    next parent _ _ =>
      have habove := ih h parent
      split
      next hwithin =>
        rw [hwithin] at habove
        exact habove
      next hwithin =>
        rw [hwithin] at habove
        split
        next hmade => exact habove.makeSingle hmade
        next => exact habove
    next => exact h
    next => exact h

theorem write (h : t.Orderly) (p : Path) (content : Content) : (t.write p content).Orderly := by
  have hreadied : (t.readied p).Orderly := by
    unfold readied
    split
    · exact h.makeWithin _ _
    · exact h
  rw [write_eq]
  cases htarget : (t.readied p).target? p with
  | none =>
    obtain ⟨fault, hput⟩ := putFile_of_not_target? content htarget
    rw [hput]
    exact hreadied
  | some place =>
    obtain ⟨directory, name, -, hdirectory, hname, hput⟩ := putFile_of_target? content htarget
    rw [hput]
    exact hreadied.putChild hdirectory hname _

theorem delete (h : t.Orderly) (p : Path) : (t.delete p).2.Orderly := by
  unfold FileTree.delete
  split
  next => exact h
  next =>
    split_ifs
    · exact h.erase _ _
    · exact h.erase _ _

end Orderly

/-! ## Paths by their words -/

theorem step_of_isVacuous (hvacuous : Path.isVacuous piece) : t.step place piece =
    if t.isDirectoryAt place then .ok place else .error .notADirectory := by
  unfold step nameOf
  rw [if_pos hvacuous]
  cases t.isDirectoryAt place <;> rfl

theorem follow_filter_of_ok {last : List String} (h : t.follow place pieces = .ok last) :
    t.follow place (pieces.filter (!Path.isVacuous ·)) = .ok last := by
  induction pieces generalizing place with
  | nil => exact h
  | cons piece pieces ih =>
    unfold follow at h
    by_cases hvacuous : Path.isVacuous piece
    · rw [List.filter_cons_of_neg (by simp [hvacuous])]
      rw [step_of_isVacuous hvacuous] at h
      split_ifs at h
      · exact ih h
      · cases h
    · rw [List.filter_cons_of_pos (by simp [hvacuous]), follow]
      cases hstep : t.step place piece with
      | error fault =>
        rw [hstep] at h
        cases h
      | ok next =>
        rw [hstep] at h
        exact ih h

theorem follow_of_not_isDirectoryAt (h : t.isDirectoryAt place = false) :
    t.follow place (piece :: pieces) = .error .notADirectory := by
  unfold follow step
  rw [h]
  rfl

/-- In front of another piece those that do not count lead nowhere. -/
theorem follow_filter_append (pieces : List (List Char)) (piece : List Char) :
    t.follow place (pieces ++ [piece]) =
      t.follow place (pieces.filter (!Path.isVacuous ·) ++ [piece]) := by
  induction pieces generalizing place with
  | nil => rfl
  | cons first pieces ih =>
    by_cases hvacuous : Path.isVacuous first
    · rw [List.filter_cons_of_neg (by simp [hvacuous]), ← ih, List.cons_append, follow,
        step_of_isVacuous hvacuous]
      cases hdirectory : t.isDirectoryAt place with
      | true => rfl
      | false =>
        obtain ⟨next, rest, hcons⟩ := List.exists_cons_of_ne_nil
          (List.append_ne_nil_of_right_ne_nil pieces (List.cons_ne_nil piece []))
        rw [hcons, follow_of_not_isDirectoryAt hdirectory]
        rfl
    · rw [List.filter_cons_of_pos (by simp [hvacuous]), List.cons_append, List.cons_append, follow,
        follow]
      congr 1
      funext next
      exact ih

/-- The names of an entry below a directory lead to it. -/
theorem follow_names (ht : t.Proper) (ho : t.Orderly) (hkey : place ++ names ∈ t.entries.keys) :
    t.follow place (names.map String.toList) = .ok (place ++ names) := by
  induction names generalizing place with
  | nil => rw [List.append_nil]; rfl
  | cons name names ih =>
    have hname : IsEntryName name := ho.names _ hkey name (by simp)
    have hdirectory := ht.isDirectoryAt_above (List.cons_ne_nil name names) hkey
    have hkey' : place ++ [name] ++ names ∈ t.entries.keys := by simpa using hkey
    have hsome : (t.entry? (place ++ [name])).isSome := by
      by_cases hlast : names = []
      · rw [hlast, List.append_nil] at hkey'
        unfold entry?
        rw [if_neg (by simp)]
        exact (Dict.mem_keys_iff _ _).mp hkey'
      · exact isSome_of_isDirectoryAt (ht.isDirectoryAt_above hlast hkey')
    have hstep := step_of_isName hdirectory hname.isName hname.fits
    rw [String.ofList_toList, if_pos hsome] at hstep
    rw [List.map_cons, follow, hstep]
    exact (ih hkey').trans (by simp)

/-- The words of what is found below a path: those of the path, and the names on the way. -/
theorem words_foldl_join (hne : p.text ≠ "") (hnames : ∀ name ∈ names, IsEntryName name) :
    (names.foldl (fun p name => p.join ⟨name⟩) p).words = p.words ++ names.map String.toList := by
  induction names generalizing p with
  | nil => rw [List.foldl_nil, List.map_nil, List.append_nil]
  | cons name names ih =>
    obtain ⟨hname, hrest⟩ := List.forall_mem_cons.mp hnames
    have hsteps : (⟨name⟩ : Path).steps = [name.toList] := by
      have hcounts := (Path.isName_iff.mp hname.isName).1
      rw [Path.steps, Path.pieces_of_not_mem hname.no_slash,
        List.filter_cons_of_pos (by simp [hcounts]), List.filter_nil]
    rw [List.foldl_cons, ih (Path.text_join_ne hne _) hrest,
      Path.words_join hne (Path.isAbsolute_of_not_mem hname.no_slash), hsteps, List.map_cons,
      List.append_assoc]
    rfl

/-- The last piece of the path to a file is a name. -/
theorem isName_of_isFile (ht : t.Proper) (h : t.isFile p) :
    ∃ piece, p.pieces.getLast? = some piece ∧ Path.isName piece := by
  obtain ⟨place, htarget, -⟩ := (isFile_iff ht).mp h
  obtain ⟨pieces, -, last, hpieces, hsplit, -, -, -, hname, -⟩ := target?_eq_some htarget
  refine ⟨last, ?_, hname⟩
  rw [← pieces_eq_ok hpieces, hsplit, List.getLast?_concat]

/-- Names that entries can have bring no NUL into a path. -/
theorem nul_not_mem_of_steps {root : Path} (hroot : '\x00' ∉ root.text.toList)
    (hnames : ∀ name ∈ names, IsEntryName name)
    (hsteps : p.steps = root.steps ++ names.map String.toList) : '\x00' ∉ p.text.toList := by
  intro hmem
  obtain ⟨other, hother, hnul⟩ := (Path.mem_text_iff (by decide)).mp hmem
  have hcounts : ¬ Path.isVacuous other := by
    intro hvacuous
    simp only [Path.isVacuous, Bool.or_eq_true, beq_iff_eq] at hvacuous
    rcases hvacuous with rfl | rfl
    · cases hnul
    · simp at hnul
  have hstep : other ∈ p.steps := List.mem_filter.mpr ⟨hother, by simp [hcounts]⟩
  rw [hsteps] at hstep
  rcases List.mem_append.mp hstep with hstep | hstep
  · exact hroot ((Path.mem_text_iff (by decide)).mpr ⟨other, (Path.steps_spec hstep).1, hnul⟩)
  · obtain ⟨name, hname, rfl⟩ := List.mem_map.mp hstep
    exact (hnames name hname).no_nul hnul

/-- Where the last piece counts, those before it may as well be left out if they do not. -/
theorem follow_of_steps {root : Path} (ht : t.Proper) (ho : t.Orderly)
    (hroot : t.follow [] root.pieces = .ok place) (hkey : place ++ names ∈ t.entries.keys)
    (hsteps : p.steps = root.steps ++ names.map String.toList)
    (hlast : p.pieces.getLast? = some piece) (hcounts : ¬ Path.isVacuous piece) :
    t.follow [] p.pieces = .ok (place ++ names) := by
  obtain ⟨front, hfront⟩ := List.getLast?_eq_some_iff.mp hlast
  have hcounted : p.steps = front.filter (!Path.isVacuous ·) ++ [piece] := by
    rw [Path.steps, hfront, List.filter_append, List.filter_cons_of_pos (by simp [hcounts]),
      List.filter_nil]
  rw [hfront, follow_filter_append, ← hcounted, hsteps, follow_append, Path.steps,
    follow_filter_of_ok hroot]
  exact follow_names ht ho hkey

/-- Every path with the words of a file below some root leads to the file. -/
theorem isFile_of_words {root : Path} {content : Content} {modified : Moment} (ht : t.Proper)
    (ho : t.Orderly) (hroot : t.resolve root = .ok place)
    (hfile : (place ++ names, .file content modified) ∈ t.entries.entries)
    (hwords : p.words = root.words ++ names.map String.toList)
    (hlast : p.pieces.getLast? = some piece) (hcounts : ¬ Path.isVacuous piece)
    (hsize : p.text.utf8ByteSize ≤ maxPathSize) : t.isFile p := by
  obtain ⟨hrootText, hrootNul, hrootFollow⟩ := resolve_eq_ok hroot
  have hkey : place ++ names ∈ t.entries.keys := List.mem_map_of_mem (f := Prod.fst) hfile
  have hsteps := Path.steps_of_words hwords hrootText
  have htext : p.text ≠ "" := by
    intro hempty
    rw [Path.words_of_empty hempty] at hwords
    exact Path.words_ne_nil hrootText (List.append_eq_nil_iff.mp hwords.symm).1
  have hnul := nul_not_mem_of_steps hrootNul
    (fun name hname => ho.names _ hkey name (List.mem_append_right _ hname)) hsteps
  have hentry : t.entry? (place ++ names) = some (.file content modified) := by
    have hne : place ++ names ≠ [] := fun hnil => ho.ne_root (hnil ▸ hkey)
    unfold entry?
    rw [if_neg hne]
    exact Dict.get?_of_mem_entries ho.nodup hfile
  have hresolve : t.resolve p = .ok (place ++ names) := by
    unfold resolve FileTree.pieces
    rw [if_neg (by simpa using hnul), if_neg htext, if_neg (Nat.not_lt.mpr hsize)]
    exact follow_of_steps ht ho hrootFollow hkey hsteps hlast hcounts
  have hlookup : t.lookup p = .ok (.file content modified) := by
    unfold lookup
    rw [hresolve]
    simp only [bind, Except.bind, hentry]
    rfl
  unfold isFile
  rw [hlookup]

theorem of_mem_walk {root : Path} (h : p ∈ t.walk root) : ∃ place names content modified,
    t.resolve root = .ok place ∧ (place ++ names, .file content modified) ∈ t.entries.entries ∧
      p = names.foldl (fun p name => p.join ⟨name⟩) root := by
  unfold walk at h
  split at h
  next => cases h
  next place hresolve =>
    obtain ⟨⟨other, entry⟩, hmem, h⟩ := List.mem_filterMap.mp h
    simp only at h
    split at h
    next content modified names hbelow =>
      rw [below?_eq_some_iff.mp hbelow] at hmem
      exact ⟨place, names, content, modified, hresolve, hmem, (Option.some.inj h).symm⟩
    next => cases h

/-- Every path with the words of a file that was found leads to the file. -/
theorem isFile_of_mem_walk {root q : Path} (ht : t.Proper) (ho : t.Orderly) (h : p ∈ t.walk root)
    (hwords : q.words = p.words) (hlast : q.pieces.getLast? = some piece)
    (hcounts : ¬ Path.isVacuous piece) (hsize : q.text.utf8ByteSize ≤ maxPathSize) :
    t.isFile q := by
  obtain ⟨place, names, content, modified, hroot, hfile, rfl⟩ := of_mem_walk h
  have hkey : place ++ names ∈ t.entries.keys := List.mem_map_of_mem (f := Prod.fst) hfile
  have hnames : ∀ name ∈ names, IsEntryName name := fun name hname =>
    ho.names _ hkey name (List.mem_append_right _ hname)
  refine isFile_of_words ht ho hroot hfile ?_ hlast hcounts hsize
  rw [hwords, words_foldl_join (resolve_eq_ok hroot).1 hnames]

end Rebuild.FileTree
