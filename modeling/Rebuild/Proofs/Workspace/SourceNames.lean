import Mathlib
import Rebuild.Proofs.FileTree.Names
import Rebuild.Proofs.Workspace.Preorder

/-! The type that a source file defines by where it lies, and where the source of a type is looked
for. Main statement: the type of a source file leads back to the file if the name of the type has
dots only where the path has slashes, and is that of an outermost type. Otherwise it never does. -/
namespace Rebuild

open Text (splitChars)

/-! ## Where dots and slashes separate -/

namespace Name

variable {binary : String}

/-- Behind the last separator there is the last piece, whatever it is. -/
theorem splitChars_throughLast (sep : Char) (cs : List Char) : ∃ front, ∀ tail, sep ∉ tail →
    splitChars sep (throughLast sep cs ++ tail) = front ++ [tail] := by
  rcases throughLast_cases sep cs with hnil | ⟨before, hbefore⟩
  · refine ⟨[], fun tail htail => ?_⟩
    rw [hnil, List.nil_append, Text.splitChars_of_not_mem htail]
    rfl
  · refine ⟨splitChars sep before, fun tail htail => ?_⟩
    rw [hbefore, List.append_assoc, List.singleton_append, Text.splitChars_append,
      Text.splitChars_of_not_mem htail]

theorem getLast?_splitChars (sep : Char) (cs : List Char) :
    (splitChars sep cs).getLast? = some (afterLast sep cs) := by
  obtain ⟨front, hfront⟩ := splitChars_throughLast sep cs
  have hcs := hfront _ (not_mem_afterLast sep cs)
  rw [throughLast_append_afterLast] at hcs
  rw [hcs, List.getLast?_concat]

theorem splitChars_toInternal (binary : String) : splitChars '/' (toInternal binary).toList =
    (splitChars '.' binary.toList).flatMap (splitChars '/') := by
  rw [toInternal, String.toList_ofList]
  exact Text.splitChars_replace '.' '/' binary.toList

theorem dot_not_mem_toInternal (binary : String) : '.' ∉ (toInternal binary).toList := by
  rw [toInternal, String.toList_ofList, List.mem_map]
  rintro ⟨c, -, hc⟩
  split_ifs at hc with hdot
  · cases hc
  · exact hdot hc

/-- The outermost type differs from the type in the last piece of its internal name only. -/
theorem splitChars_root (hslash : '/' ∉ afterLast '.' binary.toList) : ∃ top,
    (splitChars '/' (toInternal (root binary)).toList).getLast? = some top ∧
      (root binary).toList = throughLast '.' binary.toList ++ top := by
  have htop : ∃ top, (root binary).toList = throughLast '.' binary.toList ++ top ∧
      top ⊆ afterLast '.' binary.toList := by
    rw [root, String.toList_ofList, rootChars]
    split_ifs
    · exact ⟨_, (throughLast_append_afterLast '.' _).symm, List.Subset.refl _⟩
    · exact ⟨_, rfl, List.takeWhile_subset _⟩
  obtain ⟨top, hroot, hsub⟩ := htop
  obtain ⟨front, hfront⟩ := splitChars_throughLast '.' binary.toList
  refine ⟨top, ?_, hroot⟩
  rw [splitChars_toInternal, hroot, hfront top fun h => not_mem_afterLast '.' _ (hsub h),
    List.flatMap_append, List.flatMap_singleton,
    Text.splitChars_of_not_mem fun h => hslash (hsub h), List.getLast?_concat]

end Name

namespace Path

variable {base lead pieces texts : List (List Char)} {text : List Char}

/-- Pieces without dots end in a word without dots. If none of them counts, the slash in front is
the last word. -/
theorem dot_not_mem_getLast? (hne : pieces ≠ []) (hdot : ∀ piece ∈ pieces, '.' ∉ piece)
    (hlead : pieces.head? = some [] → lead = [['/']])
    (h : (lead ++ pieces.filter (!isVacuous ·)).getLast? = some text) : '.' ∉ text := by
  rcases List.eq_nil_or_concat (pieces.filter (!isVacuous ·)) with hnone | ⟨rest, last, hrest⟩
  · obtain ⟨first, more, hfirst⟩ := List.exists_cons_of_ne_nil hne
    have hmem : first ∈ pieces := hfirst ▸ List.mem_cons_self
    have hvacuous : isVacuous first := by simpa using List.filter_eq_nil_iff.mp hnone first hmem
    have hempty : first = [] := by
      simp only [isVacuous, Bool.or_eq_true, beq_iff_eq] at hvacuous
      refine hvacuous.resolve_right fun heq => hdot first hmem ?_
      rw [heq]
      exact List.mem_singleton_self _
    rw [hnone, List.append_nil, hlead (by rw [hfirst, hempty]; rfl)] at h
    rw [← Option.some.inj h]
    decide
  · rw [hrest, List.concat_eq_append, ← List.append_assoc, List.getLast?_concat] at h
    rw [← Option.some.inj h]
    have hlast : last ∈ pieces.filter (!isVacuous ·) := by simp [hrest]
    exact hdot last (List.mem_filter.mp hlast).1

/-- Texts that are the words of a path when dots separate too have no dots. -/
theorem not_mem_of_split_eq (hlead : (texts.flatMap (splitChars '.')).head? = some [] →
    lead = [['/']]) (hcounts : ∀ text ∈ texts, ¬ isVacuous text)
    (h : lead ++ (texts.flatMap (splitChars '.')).filter (!isVacuous ·) = base ++ texts) :
    lead = base ∧ ∀ text ∈ texts, '.' ∉ text := by
  induction texts using List.reverseRecOn with
  | nil => exact ⟨by simpa using h, nofun⟩
  | append_singleton texts text ih =>
    have hdot : '.' ∉ text := by
      refine dot_not_mem_getLast? (by simp [Text.splitChars_ne_nil]) ?_ hlead ?_
      · intro piece hpiece
        obtain ⟨_, -, hsplit⟩ := List.mem_flatMap.mp hpiece
        exact Text.not_mem_splitChars hsplit
      · rw [h, ← List.append_assoc, List.getLast?_concat]
    have hsplit : (texts ++ [text]).flatMap (splitChars '.') =
        texts.flatMap (splitChars '.') ++ [text] := by
      rw [List.flatMap_append, List.flatMap_singleton, Text.splitChars_of_not_mem hdot]
    have hcount : ¬ isVacuous text := hcounts text (by simp)
    rw [hsplit, List.filter_append, List.filter_cons_of_pos (by simp [hcount]), List.filter_nil,
      ← List.append_assoc, ← List.append_assoc] at h
    obtain ⟨hsame, hrest⟩ := ih (fun hhead => hlead (by rw [hsplit, List.head?_append, hhead]; rfl))
      (fun other hother => hcounts other (List.mem_append_left _ hother))
      (List.append_cancel_right h)
    refine ⟨hsame, fun other hother => ?_⟩
    rcases List.mem_append.mp hother with hother | hother
    · exact hrest other hother
    · rwa [List.mem_singleton.mp hother]

end Path

namespace Workspace

variable {w : Workspace} {t : FileTree} {path relative root : Path} {p : Project}
  {binary name : String} {stem last : List Char} {before front : List (List Char)}

/-! ## Where a type is looked for -/

theorem splitChars_sourceOfType
    (h : splitChars '/' (Name.toInternal (Name.root binary)).toList = front ++ [last])
    (hext : '/' ∉ w.sourceExtension.toList) :
    splitChars '/' (w.sourceOfType binary).text.toList =
      front ++ [last ++ '.' :: w.sourceExtension.toList] := by
  rw [sourceOfType, String.append_assoc, String.toList_append, String.toList_append]
  exact Text.splitChars_append_of_not_mem h (by simpa using hext)

/-- A type is looked for in a file whose stem has no dots. -/
theorem getLast?_sourceOfType (binary : String) (hext : '/' ∉ w.sourceExtension.toList) :
    ∃ last, (splitChars '/' (Name.toInternal (Name.root binary)).toList).getLast? = some last ∧
      (w.sourceOfType binary).pieces.getLast? =
        some (last ++ '.' :: w.sourceExtension.toList) ∧ '.' ∉ last := by
  obtain ⟨last, hlast⟩ := Option.ne_none_iff_exists'.mp fun hnone =>
    Text.splitChars_ne_nil '/' (Name.toInternal (Name.root binary)).toList
      (List.getLast?_eq_none_iff.mp hnone)
  obtain ⟨front, hfront⟩ := List.getLast?_eq_some_iff.mp hlast
  refine ⟨last, hlast, ?_, fun hdot => ?_⟩
  · rw [Path.getLast?_pieces, splitChars_sourceOfType hfront hext, List.getLast?_concat]
  · exact Name.dot_not_mem_toInternal (Name.root binary)
      ((Text.mem_splitChars_iff (by decide)).mpr ⟨last, List.mem_of_getLast? hlast, hdot⟩)

theorem sourceOfType_ne_empty (w : Workspace) (binary : String) :
    (w.sourceOfType binary).text ≠ "" := by
  rw [sourceOfType]
  simp

/-! ## The type that lies at a path -/

theorem typeOfSource?_eq_some (hp : w.projectForSource? path = some p)
    (h : w.typeOfSource? path = some binary) : ∃ relative name stem,
      path.relativeTo? p.sourceRoot = some relative ∧ relative.fileName? = some name ∧
      Path.splitName name.toList = (stem, some w.sourceExtension.toList) ∧
      binary = typeName relative := by
  unfold typeOfSource? at h
  obtain ⟨p', hp', h⟩ := Option.bind_eq_some_iff.mp h
  obtain rfl := Option.some.inj (hp.symm.trans hp')
  obtain ⟨relative, hrelative, h⟩ := Option.bind_eq_some_iff.mp h
  obtain ⟨ext, hext, h⟩ := Option.bind_eq_some_iff.mp h
  split_ifs at h with heq
  obtain ⟨name, hname, hsplit⟩ := Option.bind_eq_some_iff.mp hext
  obtain ⟨chars, hchars, rfl⟩ := Option.map_eq_some_iff.mp hsplit
  refine ⟨relative, name, (Path.splitName name.toList).1, hrelative, hname, ?_,
    (Option.some.inj h).symm⟩
  rw [← heq, String.toList_ofList, ← hchars]

/-- A source file by its path within a source root: the directories, and a stem without dots that
the name of the type ends in. -/
structure Lies (w : Workspace) (relative : Path) (before : List (List Char)) (stem : List Char) :
    Prop where
  steps : relative.steps = before ++ [stem ++ '.' :: w.sourceExtension.toList]
  name_eq : (typeName relative).toList = ['.'].intercalate (relative.lead ++ before ++ [stem])
  ne_nil : stem ≠ []
  no_dot : '.' ∉ stem

theorem lies (htrim : relative.Trimmed) (hname : relative.fileName? = some name)
    (hsplit : Path.splitName name.toList = (stem, some w.sourceExtension.toList))
    (hdot : '.' ∉ stem) : ∃ before, w.Lies relative before stem := by
  obtain ⟨hlead, before, hsteps, hwithout⟩ :=
    Path.steps_withoutExtension htrim hname hsplit hdot
  obtain ⟨happend, hne, -⟩ := Path.splitName_eq_some_iff.mp hsplit
  refine ⟨before, happend ▸ hsteps, ?_, hne, hdot⟩
  rw [typeName, String.toList_intercalate, List.map_map]
  change ['.'].intercalate relative.withoutExtension.words = _
  rw [Path.words_eq, hlead, hwithout, List.append_assoc]

namespace Lies

theorem words (h : w.Lies relative before stem) : relative.words =
    relative.lead ++ before ++ [stem ++ '.' :: w.sourceExtension.toList] := by
  rw [Path.words_eq, h.steps, List.append_assoc]

theorem slash_not_mem (h : w.Lies relative before stem) :
    '/' ∉ stem ∧ '/' ∉ w.sourceExtension.toList := by
  have hname : stem ++ '.' :: w.sourceExtension.toList ∈ relative.steps := by simp [h.steps]
  simpa using Path.slash_not_mem (Path.steps_spec hname).1

theorem of_mem_before (h : w.Lies relative before stem) {piece : List Char}
    (hpiece : piece ∈ before) : '/' ∉ piece ∧ ¬ Path.isVacuous piece := by
  have hstep : piece ∈ relative.steps := h.steps ▸ List.mem_append_left _ hpiece
  obtain ⟨hmem, hcounts⟩ := Path.steps_spec hstep
  exact ⟨Path.slash_not_mem hmem, hcounts⟩

theorem counts (h : w.Lies relative before stem) :
    ¬ Path.isVacuous (stem ++ '.' :: w.sourceExtension.toList) := by
  obtain ⟨c, cs, rfl⟩ := List.exists_cons_of_ne_nil h.ne_nil
  simp [Path.isVacuous]

theorem afterLast (h : w.Lies relative before stem) :
    Name.afterLast '.' (typeName relative).toList = stem := by
  have hlast := Name.getLast?_splitChars '.' (typeName relative).toList
  rw [h.name_eq, Text.splitChars_intercalate '.' (by simp), List.flatMap_append,
    List.flatMap_singleton, Text.splitChars_of_not_mem h.no_dot, List.getLast?_concat] at hlast
  rw [h.name_eq]
  exact (Option.some.inj hlast).symm

/-- The pieces in which the source of the type is looked for, if it is an outermost type. What
stands in front of a path leaves two empty ones. -/
theorem splitChars_sourceOfType (h : w.Lies relative before stem)
    (hroot : Name.root (typeName relative) = typeName relative) :
    splitChars '/' (w.sourceOfType (typeName relative)).text.toList =
      relative.lead.flatMap (fun _ => [[], []]) ++ before.flatMap (splitChars '.') ++
        [stem ++ '.' :: w.sourceExtension.toList] := by
  apply Workspace.splitChars_sourceOfType _ h.slash_not_mem.2
  have hlead : (relative.lead.flatMap (splitChars '.')).flatMap (splitChars '/') =
      relative.lead.flatMap fun _ => [[], []] := by
    rcases relative.lead_cases with ⟨-, hlead⟩ | ⟨-, hlead, -⟩ | ⟨-, hlead, -⟩ <;>
      rw [hlead] <;> rfl
  have hbefore : ∀ piece ∈ before.flatMap (splitChars '.'), '/' ∉ piece := by
    intro piece hpiece hslash
    obtain ⟨text, htext, hsplit⟩ := List.mem_flatMap.mp hpiece
    exact (h.of_mem_before htext).1
      ((Text.mem_splitChars_iff (by decide)).mpr ⟨piece, hsplit, hslash⟩)
  rw [hroot, Name.splitChars_toInternal, h.name_eq, Text.splitChars_intercalate '.' (by simp)]
  simp only [List.flatMap_append, List.flatMap_singleton, Text.splitChars_of_not_mem h.no_dot,
    Text.splitChars_of_not_mem h.slash_not_mem.1, hlead, Text.flatMap_splitChars_of_not_mem hbefore]

theorem steps_sourceOfType (h : w.Lies relative before stem)
    (hroot : Name.root (typeName relative) = typeName relative) :
    (w.sourceOfType (typeName relative)).steps =
      (before.flatMap (splitChars '.')).filter (!Path.isVacuous ·) ++
        [stem ++ '.' :: w.sourceExtension.toList] := by
  have hlead : (relative.lead.flatMap fun _ => [[], []]).filter (!Path.isVacuous ·) = [] := by
    rcases relative.lead_cases with ⟨-, hlead⟩ | ⟨-, hlead, -⟩ | ⟨-, hlead, -⟩ <;>
      rw [hlead] <;> rfl
  rw [Path.steps_eq, h.splitChars_sourceOfType hroot, List.filter_append, List.filter_append, hlead,
    List.nil_append, List.filter_cons_of_pos (by simp [h.counts]), List.filter_nil]

/-- The source is looked for outside the source root if anything stands in front of the path, or if
its first directory starts with a dot. -/
theorem isAbsolute_sourceOfType (h : w.Lies relative before stem)
    (hroot : Name.root (typeName relative) = typeName relative) :
    (w.sourceOfType (typeName relative)).isAbsolute ↔
      relative.lead ≠ [] ∨ (before.flatMap (splitChars '.')).head? = some [] := by
  rw [Path.isAbsolute_iff (sourceOfType_ne_empty w _), h.splitChars_sourceOfType hroot]
  rcases hlead : relative.lead with _ | ⟨first, rest⟩
  · cases before.flatMap (splitChars '.') <;> simp
  · simp

/-! ## Back to the source -/

/-- Without dots in the directories the source is looked for where it lies. -/
theorem words_join (h : w.Lies relative before stem)
    (hroot : Name.root (typeName relative) = typeName relative)
    (hdots : ∀ word ∈ relative.lead ++ before, '.' ∉ word)
    (habsolute : relative.isAbsolute → root.words = []) :
    (root.join (w.sourceOfType (typeName relative))).words =
      root.words ++ relative.words := by
  have hcounts : ∀ word ∈ before, ¬ Path.isVacuous word := fun word hword =>
    (h.of_mem_before hword).2
  have hsplit : before.flatMap (splitChars '.') = before :=
    Text.flatMap_splitChars_of_not_mem fun word hword => hdots word (List.mem_append_right _ hword)
  have hpieces := h.splitChars_sourceOfType hroot
  have hsteps := h.steps_sourceOfType hroot
  have hwhere := h.isAbsolute_sourceOfType hroot
  rw [hsplit] at hpieces hsteps hwhere
  rw [List.filter_eq_self.mpr fun word hword => by simp [hcounts word hword], ← h.steps] at hsteps
  rw [or_iff_left fun hhead => hcounts [] (List.mem_of_head? hhead) rfl] at hwhere
  rcases relative.lead_cases with ⟨hrelative, hlead⟩ | ⟨-, hlead, -⟩ | ⟨-, hlead, -⟩
  · obtain ⟨front, hjoin, hfront⟩ := Path.words_join_cases root (w.sourceOfType _)
    rw [hjoin, hfront (hwhere.mpr (by simp [hlead])), hsteps, habsolute hrelative,
      Path.words_eq relative, hlead, List.nil_append]
  · exact absurd (List.mem_singleton_self _) (hdots ['.'] (by simp [hlead]))
  · have hfirst : (w.sourceOfType (typeName relative)).lead = [] := by
      rw [Path.splitChars_text, if_neg (by simp [hwhere, hlead]), hlead] at hpieces
      refine Path.lead_eq_nil (by simpa [hlead] using hwhere) ?_
      rw [hpieces]
      intro hhead
      have hvacuous : Path.isVacuous ['.'] := rfl
      rcases before with _ | ⟨first, rest⟩
      · exact h.counts (Option.some.inj hhead ▸ hvacuous)
      · exact hcounts first List.mem_cons_self (Option.some.inj hhead ▸ hvacuous)
    rw [Path.words_join_of_lead hfirst, hsteps, Path.words_eq relative, hlead, List.nil_append]

/-- Where the source is looked for where it lies, no directory has a dot. -/
theorem dot_not_mem (h : w.Lies relative before stem) {base : List (List Char)}
    (hroot : Name.root (typeName relative) = typeName relative)
    (hwords : (root.join (w.sourceOfType (typeName relative))).words =
      base ++ relative.words) : ∀ word ∈ relative.lead ++ before, '.' ∉ word := by
  obtain ⟨front, hjoin, hfront⟩ := Path.words_join_cases root (w.sourceOfType _)
  rw [hjoin, h.steps_sourceOfType hroot, h.words, ← List.append_assoc, ← List.append_assoc]
    at hwords
  have hwhere := h.isAbsolute_sourceOfType hroot
  obtain ⟨hsame, hbefore⟩ := Path.not_mem_of_split_eq
    (fun hhead => hfront (hwhere.mpr (.inr hhead)))
    (fun word hword => (h.of_mem_before hword).2)
    ((List.append_cancel_right hwords).trans (List.append_assoc ..).symm)
  intro word hword
  rcases List.mem_append.mp hword with hword | hword
  · rcases relative.lead_cases with ⟨-, hlead⟩ | ⟨-, hlead, -⟩ | ⟨-, hlead, -⟩
    · rw [hlead, List.mem_singleton] at hword
      rw [hword]
      decide
    · -- In front of the pieces the source is looked for behind a slash, not behind a dot.
      rw [hfront (hwhere.mpr (.inl (by simp [hlead]))), hlead] at hsame
      have hlast := congrArg List.getLast? hsame
      simp at hlast
    · rw [hlead] at hword
      cases hword
  · exact hbefore word hword

end Lies

/-- Are the dots in the name of the type that lies at a path all in the place of slashes? -/
structure Undotted (relative : Path) : Prop where
  directories : ∀ word ∈ relative.words.dropLast, '.' ∉ word
  stem : ∀ stem ∈ relative.fileStem?, '.' ∉ stem.toList

/-- The last words agree where a type is looked for in a source file, so the stem of the file is one
that a type is looked for with. -/
theorem stem_of_words {base : List (List Char)} (ht : t.Proper) (htrim : relative.Trimmed)
    (hname : relative.fileName? = some name)
    (hsplit : Path.splitName name.toList = (stem, some w.sourceExtension.toList))
    (hfile : t.isFile (root.join (w.sourceOfType binary)))
    (hwords : (root.join (w.sourceOfType binary)).words = base ++ relative.words) :
    (splitChars '/' (Name.toInternal (Name.root binary)).toList).getLast? = some stem ∧
      '.' ∉ stem := by
  obtain ⟨happend, -⟩ := Path.splitName_eq_some_iff.mp hsplit
  have hext : '/' ∉ w.sourceExtension.toList := by
    have hslash := Path.slash_not_mem (List.mem_of_getLast? (htrim.getLast? hname).1)
    exact fun h => hslash (happend ▸ List.mem_append_right _ (List.mem_cons_of_mem _ h))
  obtain ⟨last, hlast, hpieces, hdot⟩ := getLast?_sourceOfType binary hext
  obtain ⟨piece, hpiece, hisName⟩ := FileTree.isName_of_isFile ht hfile
  obtain rfl : last ++ '.' :: w.sourceExtension.toList = piece := by
    rw [Path.getLast?_pieces_join, hpieces] at hpiece
    exact Option.some.inj hpiece
  have hword := Path.getLast?_words hpiece (Path.isName_iff.mp hisName).1
  rw [hwords, List.getLast?_append, (Path.of_fileName? hname).1, happend] at hword
  obtain rfl : stem = last := List.append_cancel_right (Option.some.inj hword)
  exact ⟨hlast, hdot⟩

theorem Lies.root_eq (h : w.Lies relative before stem)
    (hlast : (splitChars '/' (Name.toInternal (Name.root (typeName relative))).toList).getLast? =
      some stem) : Name.root (typeName relative) = typeName relative := by
  obtain ⟨top, htop, hchars⟩ := Name.splitChars_root (h.afterLast.symm ▸ h.slash_not_mem.1)
  obtain rfl : stem = top := Option.some.inj (hlast.symm.trans htop)
  have hwhole := Name.throughLast_append_afterLast '.' (typeName relative).toList
  rw [h.afterLast, ← hchars] at hwhole
  exact String.toList_inj.mp hwhole

/-- Where a type is looked for in its own source, its name has no other dots, and it is an outermost
type. -/
theorem undotted_of_words {base : List (List Char)} (ht : t.Proper) (htrim : relative.Trimmed)
    (hname : relative.fileName? = some name)
    (hsplit : Path.splitName name.toList = (stem, some w.sourceExtension.toList))
    (hfile : t.isFile (root.join (w.sourceOfType (typeName relative))))
    (hwords : (root.join (w.sourceOfType (typeName relative))).words = base ++ relative.words) :
    Undotted relative ∧ Name.root (typeName relative) = typeName relative := by
  obtain ⟨hlast, hdot⟩ := stem_of_words ht htrim hname hsplit hfile hwords
  obtain ⟨before, h⟩ := lies htrim hname hsplit hdot
  have hroot := h.root_eq hlast
  refine ⟨⟨?_, ?_⟩, hroot⟩
  · rw [h.words, List.dropLast_concat]
    exact h.dot_not_mem hroot hwords
  · rw [Path.fileStem?, hname]
    simpa [hsplit] using hdot

/-! ## Source files -/

theorem mem_distinctAfter {last : Path} {paths : List Path} (h : path ∈ distinctAfter last paths) :
    path ∈ paths := by
  induction paths generalizing last with
  | nil => exact h
  | cons q rest ih =>
    unfold distinctAfter at h
    split_ifs at h
    · exact List.mem_cons_of_mem _ (ih h)
    · rcases List.mem_cons.mp h with rfl | h
      · exact List.mem_cons_self
      · exact List.mem_cons_of_mem _ (ih h)

theorem mem_distinct {paths : List Path} (h : path ∈ distinct paths) : path ∈ paths := by
  cases paths with
  | nil => exact h
  | cons q rest =>
    rcases List.mem_cons.mp h with rfl | h
    · exact List.mem_cons_self
    · exact List.mem_cons_of_mem _ (mem_distinctAfter h)

/-- A source file is a file below the source root of some project. -/
theorem of_mem_sourceFiles (h : path ∈ w.sourceFiles t) :
    ∃ q ∈ w.projects.values, path ∈ t.walk q.sourceRoot := by
  have hsource := (List.mem_filter.mp (Path.mem_sort.mp (mem_distinct h))).1
  exact List.mem_flatMap.mp hsource

theorem Made.project? (h : w.Made) (hp : p ∈ w.projects.values) : w.project? p.name = some p := by
  obtain ⟨e, he, rfl⟩ := List.mem_map.mp hp
  rw [h.named e he]
  exact Dict.get?_of_mem_entries h.coherent.nodup he

/-- The closure of a project starts with the project. -/
theorem Made.closureProjects_cons (h : w.Made) (hp : p ∈ w.projects.values) :
    ∃ rest, (w.reached p.name).filterMap w.project? = p :: rest := by
  have horder := reached_depthFirst h.named (h.named.contains hp)
  generalize w.reached p.name = names at horder ⊢
  cases horder with
  | old hseen => cases hseen
  | new => exact ⟨_, List.filterMap_cons_some (h.project? hp)⟩

theorem Made.run_sourceForTypeIn (h : w.Made) (hp : p ∈ w.projects.values) (t : FileTree)
    (binary : String) : ∃ rest v, (sourceForTypeIn t p.name binary).run w =
      .ok (firstIn Project.sourceRoot (w.sourceOfType binary) t.isFile (p :: rest), v) := by
  obtain ⟨rest, hrest⟩ := h.closureProjects_cons hp
  obtain ⟨v, hrun, hextension⟩ := h.run_closureProjects (h.named.contains hp)
  refine ⟨rest, v, ?_⟩
  rw [sourceForTypeIn, StateT.run_bind, hrun, hrest, sourceOfType, ← hextension]
  rfl

/-- The type of a source file leads back to the file if, and only if, the dots in the name of the
type all stand for slashes and the type is an outermost type. What is looked for must be a path that
the system takes. -/
theorem source_of_own_type (hw : w.Made) (ht : t.Proper) (ho : t.Orderly)
    (hpath : path ∈ w.sourceFiles t) (hp : w.projectForSource? path = some p)
    (hbinary : w.typeOfSource? path = some binary) :
    ∃ relative found v, path.relativeTo? p.sourceRoot = some relative ∧
      (sourceForTypeIn t p.name binary).run w = .ok (found, v) ∧
      ((∃ q, found = some q ∧ q.same path) → Undotted relative ∧ Name.root binary = binary) ∧
      (Undotted relative → Name.root binary = binary →
        (p.sourceRoot.join (w.sourceOfType binary)).text.utf8ByteSize ≤ FileTree.maxPathSize →
        ∃ q, found = some q ∧ q.same path) := by
  obtain ⟨relative, name, stem, hrelative, hname, hsplit, rfl⟩ := typeOfSource?_eq_some hp hbinary
  obtain ⟨hwords, habsolute, htrim⟩ := Path.words_relativeTo? hrelative
  obtain ⟨rest, v, hrun⟩ := hw.run_sourceForTypeIn (of_projectForSource? hp).1 t (typeName relative)
  refine ⟨relative, _, v, hrelative, hrun, ?_, fun hundotted hroot hsize => ?_⟩
  · rintro ⟨q, hfound, hsame⟩
    have hfile : t.isFile q := List.find?_some hfound
    obtain ⟨p', -, rfl⟩ := List.mem_map.mp (List.mem_of_find?_eq_some hfound)
    exact undotted_of_words ht htrim hname hsplit hfile ((Path.same_iff.mp hsame).trans hwords)
  · have hdot : '.' ∉ stem := by
      have hstem := hundotted.stem (String.ofList stem) (by simp [Path.fileStem?, hname, hsplit])
      rwa [String.toList_ofList] at hstem
    obtain ⟨before, h⟩ := lies htrim hname hsplit hdot
    have hdots := hundotted.directories
    rw [h.words, List.dropLast_concat] at hdots
    have hsame := (h.words_join hroot hdots habsolute).trans hwords.symm
    have hlast := Path.getLast?_pieces_join p.sourceRoot (w.sourceOfType (typeName relative))
    rw [Path.getLast?_pieces (w.sourceOfType _), h.splitChars_sourceOfType hroot,
      List.getLast?_concat] at hlast
    obtain ⟨q, -, hwalk⟩ := of_mem_sourceFiles hpath
    have hfile := FileTree.isFile_of_mem_walk ht ho hwalk hsame hlast h.counts hsize
    exact ⟨_, List.find?_cons_of_pos hfile, Path.same_iff.mpr hsame⟩

/-- One source root in another. -/
def nestedRoots : Workspace where
  projects := ⟨[
    ("gen", ⟨"gen", ⟨"app/src/gen"⟩, ⟨"gen/build"⟩, [], []⟩),
    ("app", ⟨"app", ⟨"app/src"⟩, ⟨"app/build"⟩, [], ["gen"]⟩)]⟩

/-- A source below both roots, and one with a separator of nested types in its name. -/
def nestedSources : FileTree :=
  (({} : FileTree).write ⟨"app/src/gen/p/A.java"⟩ (.bytes [])).write ⟨"app/src/p/A$B.java"⟩
    (.bytes [])

theorem nestedRoots_made : nestedRoots.Made := by
  apply (Made.empty "java" "class").addProjects
  exact rebuild_eq_ok (w := nestedRoots) (by unfold Named; decide) (by decide) "java" "class"

theorem nestedSources_proper : nestedSources.Proper := (FileTree.Proper.empty.write _ _).write _ _

theorem nestedSources_orderly : nestedSources.Orderly :=
  (FileTree.Orderly.empty.write _ _).write _ _

theorem sourceFiles_nestedSources : nestedRoots.sourceFiles nestedSources =
    [⟨"app/src/gen/p/A.java"⟩, ⟨"app/src/p/A$B.java"⟩] := by
  have htexts : (nestedRoots.sourceFiles nestedSources).map Path.text =
      [⟨"app/src/gen/p/A.java"⟩, ⟨"app/src/p/A$B.java"⟩].map Path.text := by decide +kernel
  exact (List.map_inj_right fun _ _ => congrArg Path.mk).mp htexts

/-- The file belongs to the first of the projects that it lies in, and its type leads back to it. -/
theorem source_of_own_type_nested :
    nestedRoots.Made ∧ nestedSources.Proper ∧ nestedSources.Orderly ∧
      ⟨"app/src/gen/p/A.java"⟩ ∈ nestedRoots.sourceFiles nestedSources ∧
      nestedRoots.projectForSource? ⟨"app/src/gen/p/A.java"⟩ =
        some ⟨"gen", ⟨"app/src/gen"⟩, ⟨"gen/build"⟩, [], []⟩ ∧
      nestedRoots.typeOfSource? ⟨"app/src/gen/p/A.java"⟩ = some "p.A" ∧
      ∃ q v, (sourceForTypeIn nestedSources "gen" "p.A").run nestedRoots = .ok (some q, v) ∧
        q.same ⟨"app/src/gen/p/A.java"⟩ := by
  have hpath : ⟨"app/src/gen/p/A.java"⟩ ∈ nestedRoots.sourceFiles nestedSources := by
    rw [sourceFiles_nestedSources]
    exact List.mem_cons_self
  have hp : nestedRoots.projectForSource? ⟨"app/src/gen/p/A.java"⟩ =
      some ⟨"gen", ⟨"app/src/gen"⟩, ⟨"gen/build"⟩, [], []⟩ := by rfl
  have hbinary : nestedRoots.typeOfSource? ⟨"app/src/gen/p/A.java"⟩ = some "p.A" := by rfl
  obtain ⟨relative, found, v, hrelative, hrun, -, hback⟩ := source_of_own_type nestedRoots_made
    nestedSources_proper nestedSources_orderly hpath hp hbinary
  obtain rfl : ⟨"p/A.java"⟩ = relative := Option.some.inj hrelative
  obtain ⟨q, rfl, hsame⟩ := hback ⟨by decide, by decide⟩ (by rfl) (by decide)
  exact ⟨nestedRoots_made, nestedSources_proper, nestedSources_orderly, hpath, hp, hbinary, q, v,
    hrun, hsame⟩

/-- The name of the other file is read as that of a type nested in the first one. -/
theorem not_source_of_own_type :
    nestedRoots.Made ∧ nestedSources.Proper ∧ nestedSources.Orderly ∧
      ⟨"app/src/p/A$B.java"⟩ ∈ nestedRoots.sourceFiles nestedSources ∧
      nestedRoots.projectForSource? ⟨"app/src/p/A$B.java"⟩ =
        some ⟨"app", ⟨"app/src"⟩, ⟨"app/build"⟩, [], ["gen"]⟩ ∧
      nestedRoots.typeOfSource? ⟨"app/src/p/A$B.java"⟩ = some "p.A$B" ∧
      ∃ q v, (sourceForTypeIn nestedSources "app" "p.A$B").run nestedRoots = .ok (some q, v) ∧
        q = ⟨"app/src/gen/p/A.java"⟩ ∧ ¬ q.same ⟨"app/src/p/A$B.java"⟩ := by
  have hpath : ⟨"app/src/p/A$B.java"⟩ ∈ nestedRoots.sourceFiles nestedSources := by
    rw [sourceFiles_nestedSources]
    exact List.mem_cons_of_mem _ List.mem_cons_self
  have hfound : ((sourceForTypeIn nestedSources "app" "p.A$B").run nestedRoots).toOption.map
      (fun found => found.1.map Path.text) = some (some "app/src/gen/p/A.java") := by decide +kernel
  obtain ⟨⟨found, v⟩, hrun, hfound⟩ := Option.map_eq_some_iff.mp hfound
  obtain ⟨q, rfl, htext⟩ := Option.map_eq_some_iff.mp hfound
  obtain rfl : q = ⟨"app/src/gen/p/A.java"⟩ := congrArg Path.mk htext
  refine ⟨nestedRoots_made, nestedSources_proper, nestedSources_orderly, hpath, by rfl, by rfl, _,
    v, ?_, rfl, by decide⟩
  cases hanswer : (sourceForTypeIn nestedSources "app" "p.A$B").run nestedRoots with
  | error e =>
    rw [hanswer] at hrun
    cases hrun
  | ok answer =>
    rw [hanswer] at hrun
    exact congrArg Except.ok (Option.some.inj hrun)

end Workspace

end Rebuild
