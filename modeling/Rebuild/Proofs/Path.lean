import Mathlib
import Rebuild.Path
import Rebuild.Proofs.Nesting
import Rebuild.Proofs.Text.Split

/-! Paths as lists of words. Main statements: two paths are the same if their words are, a path that
is put behind another one has the words of both, and what is left of a path behind another one are
the words that it has more. -/
namespace Rebuild.Path

variable {p q base : Path} {piece : List Char} {pieces front : List (List Char)} {absolute : Bool}

/-! ## Words -/

/-- The pieces that count. -/
def steps (p : Path) : List (List Char) := p.pieces.filter (!isVacuous ·)

/-- What counts in front of the pieces: a slash, or a dot for the current directory. -/
def lead (p : Path) : List (List Char) :=
  if p.isAbsolute then [['/']] else if p.pieces.head? = some ['.'] then [['.']] else []

/-- The texts of the components. -/
def words (p : Path) : List (List Char) := p.components.map fun c => (componentText c).toList

/-- The component with a text. -/
def componentOf (word : List Char) : Component :=
  if word = ['/'] then .root
  else if word = ['.'] then .current
  else if word = ['.', '.'] then .parent
  else .normal (String.ofList word)

theorem isName_iff : isName piece ↔ ¬ isVacuous piece ∧ piece ≠ ['.', '.'] := by simp [isName]

theorem slash_not_mem (h : piece ∈ p.pieces) : '/' ∉ piece := Text.not_mem_splitChars h

theorem pieces_ne_nil (p : Path) : p.pieces ≠ [] := Text.splitChars_ne_nil _ _

theorem map_text_filterMap (pieces : List (List Char)) :
    ((pieces.filterMap component?).map fun c => (componentText c).toList) =
      pieces.filter (!isVacuous ·) := by
  induction pieces with
  | nil => rfl
  | cons piece pieces ih =>
    by_cases hvacuous : isVacuous piece
    · rw [List.filterMap_cons_none (by simp [component?, hvacuous]),
        List.filter_cons_of_neg (by simp [hvacuous]), ih]
    · have hcomponent : ∃ c, component? piece = some c ∧ (componentText c).toList = piece := by
        unfold component?
        rw [if_neg hvacuous]
        split_ifs with hup
        · exact ⟨_, rfl, hup.symm⟩
        · exact ⟨_, rfl, String.toList_ofList⟩
      obtain ⟨c, hc, htext⟩ := hcomponent
      rw [List.filterMap_cons_some hc, List.filter_cons_of_pos (by simp [hvacuous]), List.map_cons,
        htext, ih]

theorem words_eq (p : Path) : p.words = p.lead ++ p.steps := by
  unfold words lead steps components
  split_ifs with habsolute hdot
  · rw [List.map_cons, map_text_filterMap]
    rfl
  · split
    next rest heq =>
      rw [heq, List.map_cons, map_text_filterMap, List.filter_cons_of_neg (by decide)]
      rfl
    next hnot =>
      obtain ⟨rest, hrest⟩ := List.head?_eq_some_iff.mp hdot
      exact absurd hrest (hnot rest)
  · split
    next rest heq => exact absurd (by rw [heq]; rfl) hdot
    next => exact map_text_filterMap p.pieces

theorem componentOf_text {c : Component} (h : c ∈ p.components) :
    componentOf (componentText c).toList = c := by
  have hpiece (hc : c ∈ p.pieces.filterMap component?) :
      componentOf (componentText c).toList = c := by
    obtain ⟨piece, hmem, hpiece⟩ := List.mem_filterMap.mp hc
    have hslash := slash_not_mem hmem
    unfold component? isVacuous at hpiece
    split_ifs at hpiece with hvacuous hup
    · obtain rfl := Option.some.inj hpiece
      rfl
    · obtain rfl := Option.some.inj hpiece
      have hroot : piece ≠ ['/'] := by
        rintro rfl
        exact hslash (List.mem_singleton_self _)
      have hcurrent : piece ≠ ['.'] := by
        rintro rfl
        exact hvacuous rfl
      simp [componentOf, componentText, hroot, hcurrent, hup]
  unfold components at h
  split_ifs at h
  · rcases List.mem_cons.mp h with rfl | h
    · rfl
    · exact hpiece h
  · split at h
    next rest heq =>
      rcases List.mem_cons.mp h with rfl | h
      · rfl
      · refine hpiece ?_
        rw [heq]
        exact List.mem_filterMap.mpr (by simpa using Or.inr (List.mem_filterMap.mp h))
    next => exact hpiece h

theorem components_eq_map (p : Path) : p.components = p.words.map componentOf := by
  rw [words, List.map_map]
  conv_lhs => rw [← List.map_id p.components]
  exact List.map_congr_left fun c hc => (componentOf_text hc).symm

theorem same_iff : p.same q ↔ p.words = q.words := by
  unfold same
  rw [beq_iff_eq]
  constructor
  · intro h
    rw [words, h]
    rfl
  · intro h
    rw [components_eq_map, h, ← components_eq_map]

theorem components_eq_iff : p.components = q.components ↔ p.words = q.words := by
  rw [← same_iff, same, beq_iff_eq]

/-! ## Joining -/

/-- The text of a path without the slash in front. -/
def relativeChars (p : Path) : List Char :=
  if p.isAbsolute then p.text.toList.tail else p.text.toList

theorem pieces_eq (p : Path) : p.pieces = Text.splitChars '/' (relativeChars p) := rfl

/-- Whatever is in a path besides slashes is in one of its pieces. -/
theorem mem_text_iff {c : Char} (hc : c ≠ '/') :
    c ∈ p.text.toList ↔ ∃ piece ∈ p.pieces, c ∈ piece := by
  rw [pieces_eq, ← Text.mem_splitChars_iff hc]
  unfold relativeChars
  split_ifs with habsolute
  · obtain ⟨rest, hrest⟩ := List.head?_eq_some_iff.mp (beq_iff_eq.mp habsolute)
    rw [hrest, List.tail_cons, List.mem_cons, or_iff_right hc]
  · rfl

theorem relativeChars_append (hne : p.text ≠ "") (more : String) :
    relativeChars ⟨p.text ++ more⟩ = relativeChars p ++ more.toList ∧
      (⟨p.text ++ more⟩ : Path).isAbsolute = p.isAbsolute := by
  have hchars : p.text.toList ≠ [] := fun h => hne (String.toList_eq_nil_iff.mp h)
  obtain ⟨c, cs, hcs⟩ := List.exists_cons_of_ne_nil hchars
  simp only [relativeChars, isAbsolute, String.toList_append, hcs, List.cons_append,
    List.head?_cons, List.tail_cons, and_true]
  split_ifs <;> rfl

theorem isAbsolute_of_not_mem (h : '/' ∉ p.text.toList) : p.isAbsolute = false := by
  unfold isAbsolute
  rw [beq_eq_false_iff_ne]
  intro hhead
  exact h (List.mem_of_head? hhead)

/-- A single name is its own piece. -/
theorem pieces_of_not_mem (h : '/' ∉ p.text.toList) : p.pieces = [p.text.toList] := by
  rw [pieces_eq, relativeChars, isAbsolute_of_not_mem h]
  exact Text.splitChars_of_not_mem h

/-- A path without pieces in front of its last slash is the root. -/
theorem relativeChars_of_getLast? (hlast : p.text.toList.getLast? = some '/') :
    relativeChars p = [] ∨ ∃ base, relativeChars p = base ++ ['/'] := by
  obtain ⟨front, hfront⟩ := List.getLast?_eq_some_iff.mp hlast
  unfold relativeChars isAbsolute
  rw [hfront]
  cases front with
  | nil => exact .inl (by simp)
  | cons c front =>
    right
    rw [List.cons_append, List.head?_cons, List.tail_cons]
    split_ifs
    · exact ⟨front, rfl⟩
    · exact ⟨c :: front, rfl⟩

/-- What stands behind a slash brings its pieces. -/
theorem pieces_append_slash (hne : p.text ≠ "") (more : String) :
    (⟨p.text ++ ("/" ++ more)⟩ : Path).isAbsolute = p.isAbsolute ∧
      (⟨p.text ++ ("/" ++ more)⟩ : Path).pieces =
        p.pieces ++ Text.splitChars '/' more.toList := by
  obtain ⟨happend, habsolute⟩ := relativeChars_append hne ("/" ++ more)
  refine ⟨habsolute, ?_⟩
  rw [pieces_eq, happend, pieces_eq p, String.toList_append]
  exact Text.splitChars_append '/' (relativeChars p) more.toList

/-- Joined paths have the pieces of both. A slash at the end of the first one separates them. -/
theorem pieces_join (hne : p.text ≠ "") (hq : q.isAbsolute = false) :
    (p.join q).isAbsolute = p.isAbsolute ∧ ∃ front, (p.join q).pieces = front ++ q.pieces ∧
      (front = p.pieces ∨ p.pieces = front ++ [[]]) := by
  have hchars : relativeChars q = q.text.toList := by
    unfold relativeChars
    rw [hq]
    rfl
  have hnonempty : p.text.isEmpty = false := by simpa using hne
  unfold join
  rw [hq, hnonempty]
  simp only [Bool.false_eq_true, ↓reduceIte, Bool.false_or, beq_iff_eq]
  split_ifs with hlast
  · obtain ⟨happend, habsolute⟩ := relativeChars_append hne q.text
    refine ⟨habsolute, ?_⟩
    rw [pieces_eq, happend, pieces_eq q, hchars, pieces_eq p]
    rcases relativeChars_of_getLast? hlast with hnil | ⟨base, hbase⟩
    · exact ⟨[], by simp [hnil], .inr (by rw [hnil]; rfl)⟩
    · refine ⟨Text.splitChars '/' base, ?_, .inr ?_⟩
      · rw [hbase, List.append_assoc]
        exact Text.splitChars_append '/' base q.text.toList
      · rw [hbase]
        exact Text.splitChars_append '/' base []
  · rw [String.append_assoc]
    obtain ⟨habsolute, hpieces⟩ := pieces_append_slash hne q.text
    refine ⟨habsolute, p.pieces, ?_, .inl rfl⟩
    rw [hpieces, pieces_eq q, hchars]

theorem text_join_ne (hne : p.text ≠ "") (q : Path) : (p.join q).text ≠ "" := by
  unfold join
  split_ifs with hq
  · intro hempty
    simp [isAbsolute, hempty] at hq
  · simpa using fun h : p.text = "" => absurd h hne
  · simp

theorem words_of_empty (h : p.text = "") : p.words = [] := by
  obtain rfl : p = ⟨""⟩ := by rw [← h]
  rfl

theorem join_of_isAbsolute (hq : q.isAbsolute) : p.join q = q := by
  unfold join
  rw [if_pos hq]

theorem join_of_empty (hp : p.text = "") : p.join q = q := by
  unfold join
  split_ifs with hq hempty
  · rfl
  · rw [hp, String.empty_append]
  · simp [hp] at hempty

theorem steps_append_empty (pieces : List (List Char)) :
    (pieces ++ [[]]).filter (!isVacuous ·) = pieces.filter (!isVacuous ·) := by
  rw [List.filter_append, List.filter_cons_of_neg (by decide), List.filter_nil, List.append_nil]

theorem relativeChars_ne_nil (hne : p.text ≠ "") (hp : p.isAbsolute = false) :
    relativeChars p ≠ [] := by
  unfold relativeChars
  rw [hp]
  simpa using hne

theorem words_join (hne : p.text ≠ "") (hq : q.isAbsolute = false) :
    (p.join q).words = p.words ++ q.steps := by
  obtain ⟨habsolute, front, hpieces, hfront⟩ := pieces_join hne hq
  have hsteps : front.filter (!isVacuous ·) = p.steps := by
    rcases hfront with rfl | hfront
    · rfl
    · rw [steps, hfront, steps_append_empty]
  have hlead : (p.join q).lead = p.lead := by
    unfold lead
    rw [habsolute]
    cases hp : p.isAbsolute with
    | true => rfl
    | false =>
      -- Without a slash in front the first piece stays the first one.
      have hhead : (p.join q).pieces.head? = p.pieces.head? := by
        have hnil : front ≠ [] := by
          rintro rfl
          rcases hfront with hfront | hfront
          · exact pieces_ne_nil p hfront.symm
          · have hchars := Text.intercalate_splitChars '/' (relativeChars p)
            rw [← pieces_eq, hfront] at hchars
            exact relativeChars_ne_nil hne hp (by simpa using hchars.symm)
        obtain ⟨piece, rest, rfl⟩ := List.exists_cons_of_ne_nil hnil
        rw [hpieces]
        rcases hfront with hfront | hfront
        · rw [← hfront]
          rfl
        · rw [hfront]
          rfl
      rw [hhead]
  rw [words_eq, words_eq, hlead, List.append_assoc]
  congr 1
  rw [steps, hpieces, List.filter_append, hsteps]
  rfl

/-- What stands behind a slash adds the pieces of it that count. -/
theorem exists_words_slash (text : String) : ∃ before,
    (∀ more : String, (⟨text ++ ("/" ++ more)⟩ : Path).words =
      before ++ (Text.splitChars '/' more.toList).filter (!isVacuous ·)) ∧
    (text ≠ "" → before = (⟨text⟩ : Path).words) := by
  by_cases hne : text = ""
  · subst hne
    refine ⟨[['/']], fun more => ?_, absurd rfl⟩
    have habsolute : (⟨"" ++ ("/" ++ more)⟩ : Path).isAbsolute = true := by simp [isAbsolute]
    rw [words_eq, lead, if_pos habsolute, steps, pieces, habsolute]
    simp
  · refine ⟨_, fun more => ?_, fun _ => rfl⟩
    obtain ⟨habsolute, hpieces⟩ := pieces_append_slash (p := ⟨text⟩) hne more
    have hlead : (⟨text ++ ("/" ++ more)⟩ : Path).lead = (⟨text⟩ : Path).lead := by
      rw [lead, lead, habsolute, hpieces, List.head?_append_of_ne_nil _ (pieces_ne_nil _)]
    rw [words_eq, words_eq, hlead, steps, hpieces, List.filter_append, List.append_assoc]
    rfl

/-- A slash that is repeated or stands at the end does not count, and neither does a dot behind a
slash. -/
theorem components_respelled (a b : String) :
    (⟨a ++ "//" ++ b⟩ : Path).components = (⟨a ++ "/" ++ b⟩ : Path).components ∧
    (⟨a ++ "/./" ++ b⟩ : Path).components = (⟨a ++ "/" ++ b⟩ : Path).components ∧
    (a ≠ "" → (⟨a ++ "/"⟩ : Path).components = (⟨a⟩ : Path).components ∧
      (⟨a ++ "/."⟩ : Path).components = (⟨a⟩ : Path).components) := by
  obtain ⟨before, hwords, hbefore⟩ := exists_words_slash a
  have hslash : "//" ++ b = "/" ++ ("/" ++ b) := by
    rw [← String.append_assoc]
    rfl
  have hdot : "/./" ++ b = "/" ++ ("./" ++ b) := by
    rw [← String.append_assoc]
    rfl
  simp only [String.append_assoc, components_eq_iff, hslash, hdot, hwords]
  refine ⟨?_, ?_, fun hne => ⟨?_, ?_⟩⟩
  · simp [Text.splitChars, isVacuous]
  · simp [Text.splitChars, isVacuous]
  · rw [show "/" = "/" ++ "" from rfl, hwords, hbefore hne]
    simp [Text.splitChars, isVacuous]
  · rw [show "/." = "/" ++ "." from rfl, hwords, hbefore hne]
    simp [Text.splitChars, isVacuous]

/-- A path put behind another one brings its steps. Only a path that is not absolute comes to stand
behind anything. -/
theorem words_join_cases (p q : Path) : ∃ before, (p.join q).words = before ++ q.steps ∧
    (q.isAbsolute = true → before = [['/']]) := by
  cases hq : q.isAbsolute with
  | true =>
    refine ⟨[['/']], ?_, fun _ => rfl⟩
    rw [join_of_isAbsolute hq, words_eq, lead, if_pos hq]
  | false =>
    by_cases hp : p.text = ""
    · exact ⟨q.lead, by rw [join_of_empty hp, words_eq], nofun⟩
    · exact ⟨p.words, words_join hp hq, nofun⟩

theorem lead_eq_nil (hp : p.isAbsolute = false) (hfirst : p.pieces.head? ≠ some ['.']) :
    p.lead = [] := by
  unfold lead
  rw [hp, if_neg (by simp), if_neg hfirst]

/-- Where nothing stands in front of a path, it adds its steps. -/
theorem words_join_of_lead (hq : q.lead = []) : (p.join q).words = p.words ++ q.steps := by
  have habsolute : q.isAbsolute = false := by
    by_contra habsolute
    rw [lead, if_pos (by simpa using habsolute)] at hq
    cases hq
  by_cases hp : p.text = ""
  · rw [join_of_empty hp, words_eq q, hq, words_of_empty hp]
  · exact words_join hp habsolute

/-- The slash in front of an absolute path makes no difference to where the others separate. -/
theorem splitChars_text (p : Path) : Text.splitChars '/' p.text.toList =
    if p.isAbsolute then [] :: p.pieces else p.pieces := by
  rw [pieces_eq, relativeChars]
  split_ifs with habsolute
  · obtain ⟨rest, hrest⟩ := List.head?_eq_some_iff.mp (beq_iff_eq.mp habsolute)
    rw [hrest, List.tail_cons, Text.splitChars, if_pos rfl]
  · rfl

theorem steps_eq (p : Path) :
    p.steps = (Text.splitChars '/' p.text.toList).filter (!isVacuous ·) := by
  rw [splitChars_text]
  split_ifs
  · exact (List.filter_cons_of_neg (by decide)).symm
  · rfl

theorem getLast?_pieces (p : Path) :
    p.pieces.getLast? = (Text.splitChars '/' p.text.toList).getLast? := by
  rw [splitChars_text]
  split_ifs
  · rw [List.getLast?_cons_of_ne_nil (pieces_ne_nil p)]
  · rfl

theorem getLast?_pieces_join (p q : Path) : (p.join q).pieces.getLast? = q.pieces.getLast? := by
  cases hq : q.isAbsolute with
  | true => rw [join_of_isAbsolute hq]
  | false =>
    by_cases hp : p.text = ""
    · rw [join_of_empty hp]
    · obtain ⟨-, front, hpieces, -⟩ := pieces_join hp hq
      rw [hpieces, List.getLast?_append_of_ne_nil _ (pieces_ne_nil q)]

/-! ## Paths from pieces -/

/-- The path of some pieces has these pieces, unless the first one is empty in a path that is not
absolute. -/
theorem ofPieces_spec (hne : pieces ≠ []) (hslash : ∀ piece ∈ pieces, '/' ∉ piece)
    (hfirst : absolute = true ∨ pieces.head? ≠ some []) :
    (ofPieces absolute pieces).isAbsolute = absolute ∧
      (ofPieces absolute pieces).pieces = pieces := by
  have hsplit := Text.splitChars_intercalate_of_not_mem hne hslash
  cases absolute with
  | true =>
    have habsolute : (ofPieces true pieces).isAbsolute = true := by simp [ofPieces, isAbsolute]
    refine ⟨habsolute, ?_⟩
    rw [pieces_eq, relativeChars, habsolute]
    simpa [ofPieces] using hsplit
  | false =>
    have habsolute : (ofPieces false pieces).isAbsolute = false := by
      obtain ⟨piece, rest, rfl⟩ := List.exists_cons_of_ne_nil hne
      have hpiece : piece ≠ [] := by simpa using hfirst
      obtain ⟨c, cs, rfl⟩ := List.exists_cons_of_ne_nil hpiece
      have hc : c ≠ '/' := by
        rintro rfl
        exact hslash _ List.mem_cons_self List.mem_cons_self
      cases rest <;> simp [ofPieces, isAbsolute, hc]
    refine ⟨habsolute, ?_⟩
    rw [pieces_eq, relativeChars, habsolute]
    simpa [ofPieces] using hsplit

/-- The text of a path is that of its pieces. -/
theorem ofPieces_pieces (p : Path) : ofPieces p.isAbsolute p.pieces = p := by
  have hchars := Text.intercalate_splitChars '/' (relativeChars p)
  rw [← pieces_eq] at hchars
  unfold ofPieces
  simp only [hchars]
  unfold relativeChars
  cases hp : p.isAbsolute with
  | false => simp
  | true =>
    obtain ⟨rest, hrest⟩ := List.head?_eq_some_iff.mp (beq_iff_eq.mp hp)
    simp only [↓reduceIte, hrest, List.tail_cons]
    rw [← hrest, String.ofList_toList]

/-- A path that is not absolute starts with a piece, unless it is empty. -/
theorem head?_pieces_ne (hne : p.text ≠ "") (hp : p.isAbsolute = false) :
    p.pieces.head? ≠ some [] := by
  intro hhead
  obtain ⟨rest, hrest⟩ := List.head?_eq_some_iff.mp hhead
  have hchars := Text.intercalate_splitChars '/' (relativeChars p)
  rw [← pieces_eq, hrest] at hchars
  cases rest with
  | nil => exact relativeChars_ne_nil hne hp (by simpa using hchars.symm)
  | cons piece rest =>
    have htext : relativeChars p = p.text.toList := by
      rw [relativeChars, hp]
      rfl
    rw [isAbsolute, ← htext, ← hchars] at hp
    simp at hp

/-! ## Pieces that count -/

theorem steps_spec (h : piece ∈ p.steps) : piece ∈ p.pieces ∧ ¬ isVacuous piece := by
  simpa [steps] using h

theorem filter_dropWhile (pieces : List (List Char)) :
    (pieces.dropWhile isVacuous).filter (!isVacuous ·) = pieces.filter (!isVacuous ·) := by
  induction pieces with
  | nil => rfl
  | cons piece pieces ih =>
    by_cases hvacuous : isVacuous piece
    · rw [List.dropWhile_cons_of_pos hvacuous, ih, List.filter_cons_of_neg (by simp [hvacuous])]
    · rw [List.dropWhile_cons_of_neg hvacuous]

theorem not_isVacuous_head_dropWhile (h : piece ∈ (pieces.dropWhile isVacuous).head?) :
    ¬ isVacuous piece := by
  have hhead := List.head?_dropWhile_not isVacuous pieces
  rw [Option.mem_def.mp h] at hhead
  simpa using hhead

theorem filter_trimEnd (pieces : List (List Char)) :
    (trimEnd pieces).filter (!isVacuous ·) = pieces.filter (!isVacuous ·) := by
  unfold trimEnd
  rw [List.filter_reverse, filter_dropWhile, ← List.filter_reverse, List.reverse_reverse]

theorem front_trimEnd (pieces : List (List Char)) : trimEnd pieces <+: pieces := by
  rw [← List.reverse_suffix, trimEnd, List.reverse_reverse]
  exact List.dropWhile_suffix _

theorem not_isVacuous_getLast_trimEnd (h : piece ∈ (trimEnd pieces).getLast?) :
    ¬ isVacuous piece := by
  rw [trimEnd, List.getLast?_reverse] at h
  exact not_isVacuous_head_dropWhile h

/-- Where something is left, nothing was taken from the front. -/
theorem head?_trimEnd (h : piece ∈ (trimEnd pieces).head?) : piece ∈ pieces.head? := by
  obtain ⟨rest, hrest⟩ := front_trimEnd pieces
  rw [← hrest, List.head?_append, Option.mem_def.mp h]
  rfl

theorem filter_dropComponents (n : Nat) (pieces : List (List Char)) :
    (dropComponents n pieces).filter (!isVacuous ·) =
      (pieces.filter (!isVacuous ·)).drop n := by
  induction pieces generalizing n with
  | nil => cases n <;> rfl
  | cons piece pieces ih =>
    cases n with
    | zero => exact filter_dropWhile (piece :: pieces)
    | succ n =>
      unfold dropComponents
      split_ifs with hvacuous
      · rw [ih, List.filter_cons_of_neg (by simp [hvacuous])]
      · rw [ih, List.filter_cons_of_pos (by simp [hvacuous]), List.drop_succ_cons]

theorem not_isVacuous_head_dropComponents {n : Nat}
    (h : piece ∈ (dropComponents n pieces).head?) : ¬ isVacuous piece := by
  induction pieces generalizing n with
  | nil => cases n <;> cases h
  | cons first pieces ih =>
    cases n with
    | zero => exact not_isVacuous_head_dropWhile h
    | succ n =>
      unfold dropComponents at h
      split_ifs at h with hvacuous
      · exact ih h
      · exact ih h

theorem dropComponents_suffix (n : Nat) (pieces : List (List Char)) :
    dropComponents n pieces <:+ pieces := by
  induction pieces generalizing n with
  | nil => cases n <;> exact List.suffix_rfl
  | cons piece pieces ih =>
    cases n with
    | zero => exact List.dropWhile_suffix _
    | succ n =>
      unfold dropComponents
      split_ifs
      · exact (ih _).trans (List.suffix_cons ..)
      · exact (ih _).trans (List.suffix_cons ..)

/-! ## Relative paths -/

/-- A path of some pieces, the first of which counts, has no other words. -/
theorem words_ofPieces (hslash : ∀ piece ∈ pieces, '/' ∉ piece)
    (hhead : ∀ piece ∈ pieces.head?, ¬ isVacuous piece) :
    (ofPieces false pieces).isAbsolute = false ∧
      (ofPieces false pieces).words = pieces.filter (!isVacuous ·) := by
  cases pieces with
  | nil => exact ⟨rfl, rfl⟩
  | cons piece rest =>
    have hpiece : ¬ isVacuous piece := hhead piece rfl
    have hfirst : (piece :: rest).head? ≠ some [] := by
      rintro heq
      obtain rfl : piece = [] := by simpa using heq
      exact hpiece rfl
    obtain ⟨habsolute, hpieces⟩ :=
      ofPieces_spec (List.cons_ne_nil piece rest) hslash (.inr hfirst)
    refine ⟨habsolute, ?_⟩
    have hlead : (ofPieces false (piece :: rest)).lead = [] := by
      unfold lead
      rw [habsolute, hpieces, if_neg (by simp), if_neg]
      rintro heq
      obtain rfl : piece = ['.'] := by simpa using heq
      exact hpiece rfl
    rw [words_eq, hlead, steps, hpieces]
    rfl

theorem lead_cases (p : Path) : p.isAbsolute = true ∧ p.lead = [['/']] ∨
    p.isAbsolute = false ∧ p.lead = [['.']] ∧ p.pieces = ['.'] :: p.pieces.tail ∨
    p.isAbsolute = false ∧ p.lead = [] ∧ p.pieces.head? ≠ some ['.'] := by
  unfold lead
  cases p.isAbsolute with
  | true => exact .inl ⟨rfl, rfl⟩
  | false =>
    by_cases hdot : p.pieces.head? = some ['.']
    · obtain ⟨rest, hrest⟩ := List.head?_eq_some_iff.mp hdot
      exact .inr (.inl ⟨rfl, by simp [hdot], by rw [hrest]; rfl⟩)
    · exact .inr (.inr ⟨rfl, by simp [hdot], hdot⟩)

/-- Nothing stands behind the last piece that counts. -/
def Trimmed (p : Path) : Prop := p.steps = [] ∨ ∀ piece ∈ p.pieces.getLast?, ¬ isVacuous piece

theorem trimmed_ofPieces (hslash : ∀ piece ∈ pieces, '/' ∉ piece)
    (hfirst : absolute = true ∨ pieces.head? ≠ some [])
    (hlast : ∀ piece ∈ pieces.getLast?, ¬ isVacuous piece) :
    (ofPieces absolute pieces).Trimmed := by
  by_cases hne : pieces = []
  · rw [hne]
    cases absolute <;> exact .inl rfl
  · right
    rw [(ofPieces_spec hne hslash hfirst).2]
    exact hlast

/-- What is left of some pieces behind the first of them that count. -/
theorem relative_spec (n : Nat) (hslash : ∀ piece ∈ pieces, '/' ∉ piece) :
    let r := ofPieces false (trimEnd (dropComponents n pieces))
    r.isAbsolute = false ∧ r.words = (pieces.filter (!isVacuous ·)).drop n ∧ r.Trimmed := by
  intro r
  have hsub : trimEnd (dropComponents n pieces) ⊆ pieces :=
    List.Subset.trans (front_trimEnd _).subset (dropComponents_suffix n pieces).subset
  have hslash' : ∀ piece ∈ trimEnd (dropComponents n pieces), '/' ∉ piece :=
    fun piece hpiece => hslash piece (hsub hpiece)
  have hhead : ∀ piece ∈ (trimEnd (dropComponents n pieces)).head?, ¬ isVacuous piece :=
    fun piece hpiece => not_isVacuous_head_dropComponents (head?_trimEnd hpiece)
  obtain ⟨habsolute, hwords⟩ := words_ofPieces hslash' hhead
  refine ⟨habsolute, ?_, trimmed_ofPieces hslash' (.inr ?_) fun _ => not_isVacuous_getLast_trimEnd⟩
  · rw [hwords, filter_trimEnd, filter_dropComponents]
  · exact fun hnil => hhead [] hnil rfl

/-- A path without the pieces at its end that do not count. -/
theorem meaningful_spec (p : Path) :
    let r := ofPieces p.isAbsolute p.meaningful.reverse
    r.words = p.words ∧ r.Trimmed := by
  intro r
  have hr : r = ofPieces p.isAbsolute p.meaningful.reverse := rfl
  clear_value r
  unfold meaningful dropVacuous at hr
  have hslash : ∀ piece ∈ trimEnd p.pieces, '/' ∉ piece :=
    fun piece hpiece => slash_not_mem ((front_trimEnd _).subset hpiece)
  split at hr
  next hnone =>
    -- No piece counts: the path is a slash, a dot or nothing.
    have hsteps : p.steps = [] := by
      rw [steps, ← filter_trimEnd, trimEnd, hnone]
      rfl
    rw [List.getLast?_reverse] at hr
    rcases lead_cases p with
      ⟨habsolute, hlead⟩ | ⟨habsolute, hlead, hdot⟩ | ⟨habsolute, hlead, hdot⟩
    · rw [words_eq p, hlead, hsteps, hr, habsolute]
      simp only [Bool.not_true, Bool.false_and, Bool.false_eq_true, ↓reduceIte]
      exact ⟨rfl, .inl rfl⟩
    · rw [words_eq p, hlead, hsteps, hr, habsolute, hdot]
      simp only [Bool.not_false, Bool.true_and, List.head?_cons, BEq.rfl, ↓reduceIte]
      exact ⟨rfl, .inl rfl⟩
    · rw [words_eq p, hlead, hsteps, hr, habsolute]
      simp only [Bool.not_false, Bool.true_and, beq_iff_eq, hdot, ↓reduceIte]
      exact ⟨rfl, .inl rfl⟩
  next hsome =>
    change r = ofPieces p.isAbsolute (trimEnd p.pieces) at hr
    have hne : trimEnd p.pieces ≠ [] := by
      intro hnil
      rw [trimEnd, List.reverse_eq_nil_iff] at hnil
      exact hsome hnil
    have hhead : (trimEnd p.pieces).head? = p.pieces.head? := by
      obtain ⟨piece, rest, hcons⟩ := List.exists_cons_of_ne_nil hne
      have hpiece : (trimEnd p.pieces).head? = some piece := by rw [hcons]; rfl
      rw [hpiece, head?_trimEnd hpiece]
    have hfirst : p.isAbsolute = true ∨ (trimEnd p.pieces).head? ≠ some [] := by
      cases hp : p.isAbsolute with
      | true => exact .inl rfl
      | false =>
        right
        rw [hhead]
        refine head?_pieces_ne (fun hempty => hne ?_) hp
        have hpieces : p.pieces = [[]] := by
          rw [pieces_eq, relativeChars, hp, hempty]
          rfl
        rw [hpieces]
        rfl
    obtain ⟨habsolute, hpieces⟩ := ofPieces_spec hne hslash hfirst
    rw [hr]
    refine ⟨?_, trimmed_ofPieces hslash hfirst fun _ => not_isVacuous_getLast_trimEnd⟩
    rw [words_eq, words_eq p, lead, lead, steps, steps, habsolute, hpieces, hhead, filter_trimEnd]

theorem words_of_startsWith (h : p.startsWith base) : base.words <+: p.words := by
  obtain ⟨rest, hrest⟩ := List.isPrefixOf_iff_prefix.mp h
  exact ⟨rest.map fun c => (componentText c).toList, by rw [words, words, ← hrest, List.map_append]⟩

/-- A path whose first word is a slash, a dot or neither. -/
theorem words_eq_of_head? {word : List Char} (h : p.words.head? = some word) :
    word = ['/'] ∧ p.words = ['/'] :: p.steps ∨
      word = ['.'] ∧ p.words = ['.'] :: p.steps ∧ p.pieces = ['.'] :: p.pieces.tail ∨
      word ≠ ['/'] ∧ word ≠ ['.'] ∧ p.words = p.steps := by
  rw [words_eq] at h ⊢
  rcases lead_cases p with ⟨-, hlead⟩ | ⟨-, hlead, hdot⟩ | ⟨-, hlead, -⟩ <;> rw [hlead] at h ⊢
  · exact .inl ⟨(Option.some.inj h).symm, rfl⟩
  · exact .inr (.inl ⟨(Option.some.inj h).symm, rfl, hdot⟩)
  · obtain ⟨hmem, hcounts⟩ := steps_spec (List.mem_of_head? h)
    refine .inr (.inr ⟨?_, ?_, rfl⟩)
    · rintro rfl
      exact slash_not_mem hmem (List.mem_singleton_self _)
    · rintro rfl
      exact hcounts rfl

theorem words_ne_nil (hne : p.text ≠ "") : p.words ≠ [] := by
  rw [words_eq]
  rcases lead_cases p with ⟨-, hlead⟩ | ⟨-, hlead, -⟩ | ⟨habsolute, hlead, hdot⟩ <;> rw [hlead]
  · exact List.cons_ne_nil _ _
  · exact List.cons_ne_nil _ _
  · obtain ⟨piece, rest, hpieces⟩ := List.exists_cons_of_ne_nil (pieces_ne_nil p)
    have hempty := head?_pieces_ne hne habsolute
    rw [hpieces] at hempty hdot
    have hcounts : ¬ isVacuous piece := by simpa [isVacuous] using And.intro hempty hdot
    rw [steps, hpieces, List.filter_cons_of_pos (by simp [hcounts])]
    exact List.cons_ne_nil _ _

/-- More words are more steps. -/
theorem steps_of_words {rest : List (List Char)} (h : p.words = q.words ++ rest)
    (hq : q.text ≠ "") : p.steps = q.steps ++ rest := by
  obtain ⟨word, more, hcons⟩ := List.exists_cons_of_ne_nil (words_ne_nil hq)
  have hqHead : q.words.head? = some word := by rw [hcons]; rfl
  have hpHead : p.words.head? = some word := by rw [h, hcons]; rfl
  rcases words_eq_of_head? hqHead with
      ⟨rfl, hqWords⟩ | ⟨rfl, hqWords, -⟩ | ⟨hslash, hdot, hqWords⟩ <;>
    rcases words_eq_of_head? hpHead with
      ⟨hword, hpWords⟩ | ⟨hword, hpWords, -⟩ | ⟨hslash', hdot', hpWords⟩
  · rw [hpWords, hqWords] at h
    exact (List.cons.inj h).2
  · cases hword
  · exact absurd rfl hslash'
  · cases hword
  · rw [hpWords, hqWords] at h
    exact (List.cons.inj h).2
  · exact absurd rfl hdot'
  · exact absurd hword hslash
  · exact absurd hword hdot
  · rw [hpWords, hqWords] at h
    exact h

theorem words_of_components {c : Component} {rest : List Component}
    (h : p.components = c :: rest) : p.words =
      (componentText c).toList :: rest.map fun c => (componentText c).toList := by
  rw [words, h]
  rfl

/-- Behind some of the pieces that count there are the words that the path has more. -/
theorem words_behind {n : Nat} {more : List (List Char)} (hsub : pieces ⊆ p.pieces)
    (hdrop : (pieces.filter (!isVacuous ·)).drop n = more) (hmore : base.words ++ more = p.words) :
    let r := ofPieces false (trimEnd (dropComponents n pieces))
    p.words = base.words ++ r.words ∧ (r.isAbsolute = true → base.words = []) ∧ r.Trimmed := by
  intro r
  obtain ⟨habsolute, hwords, htrimmed⟩ :=
    relative_spec n fun piece hpiece => slash_not_mem (hsub hpiece)
  refine ⟨by rw [hwords, hdrop, hmore], fun hr => ?_, htrimmed⟩
  rw [habsolute] at hr
  cases hr

/-- What is left of a path behind another one are the words that it has more. -/
theorem words_relativeTo? {r : Path} (h : p.relativeTo? base = some r) :
    p.words = base.words ++ r.words ∧ (r.isAbsolute = true → base.words = []) ∧ r.Trimmed := by
  unfold relativeTo? at h
  split_ifs at h with hstarts
  obtain ⟨more, hmore⟩ := words_of_startsWith hstarts
  have hhead {c : Component} {rest : List Component} (hbase : base.components = c :: rest) :
      p.words.head? = some (componentText c).toList := by
    rw [← hmore, words_of_components hbase]
    rfl
  split at h
  next hbase =>
    obtain rfl := Option.some.inj h
    obtain ⟨hwords, htrimmed⟩ := meaningful_spec p
    have hnil : base.words = [] := by rw [words, hbase]; rfl
    exact ⟨by rw [hwords, hnil, List.nil_append], fun _ => hnil, htrimmed⟩
  next rest hbase =>
    obtain rfl := Option.some.inj h
    refine words_behind (List.Subset.refl _) ?_ hmore
    rcases words_eq_of_head? (hhead hbase) with ⟨-, hp⟩ | ⟨hslash, -⟩ | ⟨hslash, -⟩
    · rw [hp, words_of_components hbase] at hmore
      rw [← steps, ← (List.cons.inj hmore).2]
      exact List.drop_left' (List.length_map _)
    · cases hslash
    · exact absurd rfl hslash
  next rest hbase =>
    obtain rfl := Option.some.inj h
    refine words_behind (List.tail_subset _) ?_ hmore
    rcases words_eq_of_head? (hhead hbase) with ⟨hdot, -⟩ | ⟨-, hp, hpieces⟩ | ⟨-, hdot, -⟩
    · cases hdot
    · rw [hp, words_of_components hbase] at hmore
      have hsteps : p.steps = p.pieces.tail.filter (!isVacuous ·) := by
        rw [steps, hpieces, List.filter_cons_of_neg (by decide), List.tail_cons]
      rw [← hsteps, ← (List.cons.inj hmore).2]
      exact List.drop_left' (List.length_map _)
    · exact absurd rfl hdot
  next hnil hroot hcurrent =>
    obtain rfl := Option.some.inj h
    refine words_behind (List.Subset.refl _) ?_ hmore
    obtain ⟨c, rest, hbase⟩ := List.exists_cons_of_ne_nil hnil
    have hcomponent := componentOf_text (hbase ▸ List.mem_cons_self : c ∈ base.components)
    rcases words_eq_of_head? (hhead hbase) with ⟨heq, -⟩ | ⟨heq, -⟩ | ⟨-, -, hp⟩
    · rw [heq] at hcomponent
      obtain rfl : .root = c := hcomponent
      exact absurd hbase (hroot rest)
    · rw [heq] at hcomponent
      obtain rfl : .current = c := hcomponent
      exact absurd hbase (hcurrent rest)
    · rw [hp] at hmore
      rw [← steps, ← hmore, List.drop_left' (by rw [words, List.length_map])]

/-! ## Extensions -/

theorem splitName_eq_some_iff {name stem ext : List Char} : splitName name = (stem, some ext) ↔
    name = stem ++ '.' :: ext ∧ stem ≠ [] ∧ '.' ∉ ext ∧ name ≠ ['.', '.'] := by
  have hcut := Name.throughLast_append_afterLast '.' name
  unfold splitName
  simp only [Bool.or_eq_true, decide_eq_true_eq]
  constructor
  · intro h
    split_ifs at h with hnone
    · cases h
    · rw [not_or] at hnone
      obtain ⟨hstem, hext⟩ := Prod.mk.inj h
      obtain rfl := Option.some.inj hext
      refine ⟨?_, hstem ▸ hnone.1, Name.not_mem_afterLast '.' name, hnone.2⟩
      rcases Name.throughLast_cases '.' name with hnil | ⟨before, hbefore⟩
      · rw [hnil] at hnone
        exact absurd rfl hnone.1
      · rw [hbefore, List.dropLast_concat] at hstem
        rw [hbefore, hstem, List.append_assoc] at hcut
        exact hcut.symm
  · rintro ⟨rfl, hstem, hext, hdots⟩
    have happend : stem ++ '.' :: ext = (stem ++ ['.']) ++ ext := by simp
    obtain ⟨hfront, hlast⟩ := Name.cut_at_last (.inr ⟨stem, rfl⟩) hext
    rw [← happend] at hfront hlast
    rw [hfront, hlast, List.dropLast_concat, if_neg]
    simpa [hstem] using hdots

theorem getLast?_words (hlast : p.pieces.getLast? = some piece) (hcounts : ¬ isVacuous piece) :
    p.words.getLast? = some piece := by
  obtain ⟨front, hfront⟩ := List.getLast?_eq_some_iff.mp hlast
  rw [words_eq, steps, hfront, List.filter_append, List.filter_cons_of_pos (by simp [hcounts]),
    List.filter_nil, ← List.append_assoc, List.getLast?_concat]

theorem fileName?_of_getLast? (hlast : p.pieces.getLast? = some piece) (hname : isName piece) :
    p.fileName? = some (String.ofList piece) := by
  obtain ⟨hcounts, hup⟩ := isName_iff.mp hname
  have hword := getLast?_words hlast hcounts
  have hslash : piece ≠ ['/'] := by
    rintro rfl
    exact slash_not_mem (List.mem_of_getLast? hlast) (List.mem_singleton_self _)
  have hdot : piece ≠ ['.'] := by
    rintro rfl
    exact hcounts rfl
  have hcomponent : componentOf piece = .normal (String.ofList piece) := by
    simp [componentOf, hslash, hdot, hup]
  unfold fileName?
  rw [components_eq_map, List.getLast?_map, hword, Option.map_some, hcomponent]

theorem of_fileName? {name : String} (h : p.fileName? = some name) :
    p.words.getLast? = some name.toList ∧ componentOf name.toList = .normal name := by
  unfold fileName? at h
  split at h
  next name' hlast =>
    obtain rfl := Option.some.inj h
    refine ⟨?_, componentOf_text (List.mem_of_getLast? hlast)⟩
    rw [words, List.getLast?_map, hlast]
    rfl
  next => cases h

/-- The file name is the last piece, if nothing stands behind it. -/
theorem Trimmed.getLast? {name : String} (ht : p.Trimmed) (h : p.fileName? = some name) :
    p.pieces.getLast? = some name.toList ∧ isName name.toList := by
  obtain ⟨hword, hcomponent⟩ := of_fileName? h
  have hsteps : p.steps ≠ [] := by
    intro hnone
    rw [words_eq, hnone, List.append_nil] at hword
    have hlead : p.lead = [['/']] ∨ p.lead = [['.']] ∨ p.lead = [] := by
      rcases lead_cases p with ⟨-, h⟩ | ⟨-, h, -⟩ | ⟨-, h, -⟩ <;> simp [h]
    rcases hlead with hlead | hlead | hlead <;> rw [hlead] at hword
    · rw [← Option.some.inj hword] at hcomponent
      cases hcomponent
    · rw [← Option.some.inj hword] at hcomponent
      cases hcomponent
    · cases hword
  have hlast := List.getLast?_eq_some_getLast (pieces_ne_nil p)
  have hcounts : ¬ isVacuous (p.pieces.getLast (pieces_ne_nil p)) :=
    (ht.resolve_left hsteps) _ hlast
  have hname : p.pieces.getLast (pieces_ne_nil p) = name.toList :=
    Option.some.inj ((getLast?_words hlast hcounts).symm.trans hword)
  rw [hname] at hlast hcounts
  refine ⟨hlast, ?_⟩
  have hup : name.toList ≠ ['.', '.'] := by
    intro hup
    rw [hup] at hcomponent
    cases hcomponent
  simp [isName, hcounts, hup]

theorem isName_of_not_mem (hne : piece ≠ []) (hdot : '.' ∉ piece) : isName piece := by
  have hcurrent : piece ≠ ['.'] := by
    rintro rfl
    exact hdot (List.mem_singleton_self _)
  have hup : piece ≠ ['.', '.'] := by
    rintro rfl
    exact hdot List.mem_cons_self
  simp [isName, isVacuous, hne, hcurrent, hup]

/-- Paths that differ in their last piece have the same words before it. -/
theorem steps_of_pieces_concat {last last' : List Char} (habsolute : p.isAbsolute = q.isAbsolute)
    (hp : p.pieces = front ++ [last]) (hq : q.pieces = front ++ [last']) (hlast : ¬ isVacuous last)
    (hlast' : ¬ isVacuous last') :
    q.lead = p.lead ∧ ∃ before, p.steps = before ++ [last] ∧ q.steps = before ++ [last'] := by
  constructor
  · unfold lead
    rw [habsolute, hp, hq]
    cases front with
    | nil =>
      have hdot : last ≠ ['.'] := fun h => hlast (h ▸ rfl)
      have hdot' : last' ≠ ['.'] := fun h => hlast' (h ▸ rfl)
      simp [hdot, hdot']
    | cons piece front => rfl
  · refine ⟨front.filter (!isVacuous ·), ?_, ?_⟩
    · rw [steps, hp, List.filter_append, List.filter_cons_of_pos (by simp [hlast]), List.filter_nil]
    · rw [steps, hq, List.filter_append, List.filter_cons_of_pos (by simp [hlast']),
        List.filter_nil]

theorem isAbsolute_iff (hne : p.text ≠ "") :
    p.isAbsolute ↔ (Text.splitChars '/' p.text.toList).head? = some [] := by
  rw [splitChars_text]
  cases hp : p.isAbsolute with
  | true => simp
  | false => simpa using head?_pieces_ne hne hp

/-- The last piece of a path can be replaced by another one. -/
theorem ofPieces_replaced {last : List Char} (hp : p.pieces = front ++ [piece]) (hne : last ≠ [])
    (hslash : '/' ∉ last) :
    (ofPieces p.isAbsolute (front ++ [last])).isAbsolute = p.isAbsolute ∧
      (ofPieces p.isAbsolute (front ++ [last])).pieces = front ++ [last] := by
  apply ofPieces_spec (by simp)
  · intro other hother
    rcases List.mem_append.mp hother with hother | hother
    · exact slash_not_mem (hp ▸ List.mem_append_left _ hother)
    · rwa [List.mem_singleton.mp hother]
  · cases hp' : p.isAbsolute with
    | true => exact .inl rfl
    | false =>
      right
      cases front with
      | nil => simpa using hne
      | cons first rest =>
        have htext : p.text ≠ "" := by
          intro hempty
          rw [pieces_eq, relativeChars, hp', hempty] at hp
          simp [Text.splitChars] at hp
        have hhead := head?_pieces_ne htext hp'
        rwa [hp] at hhead

theorem text_ofPieces_append (absolute : Bool) (front : List (List Char)) (last more : List Char) :
    (ofPieces absolute (front ++ [last ++ more])).text.toList =
      (ofPieces absolute (front ++ [last])).text.toList ++ more := by
  unfold ofPieces
  simp only [String.toList_ofList, ← Text.intercalate_concat_append]
  split_ifs <;> rfl

/-- The text of a path without the end of its last piece. -/
theorem take_text {last more : List Char} (hp : p.pieces = front ++ [last ++ more]) :
    p.text.toList.take (p.text.length - more.length) =
      (ofPieces p.isAbsolute (front ++ [last])).text.toList := by
  have htext : p.text.toList = (ofPieces p.isAbsolute (front ++ [last])).text.toList ++ more := by
    conv_lhs => rw [← ofPieces_pieces p, hp]
    rw [← text_ofPieces_append]
  rw [← String.length_toList, htext, List.length_append, Nat.add_sub_cancel, List.take_left]

theorem throughStem_of_pieces {stem : List Char} {ext : Option (List Char)}
    (hp : p.pieces = front ++ [piece]) (hname : isName piece)
    (hsplit : splitName piece = (stem, ext)) :
    p.throughStem = ofPieces p.isAbsolute (front ++ [stem]) := by
  have hlast : p.pieces.getLast? = some piece := by rw [hp, List.getLast?_concat]
  have hmeaningful : p.meaningful = piece :: front.reverse := by
    unfold meaningful dropVacuous
    rw [hp, List.reverse_append, List.reverse_singleton, List.singleton_append,
      List.dropWhile_cons_of_neg (isName_iff.mp hname).1]
  unfold throughStem
  rw [fileName?_of_getLast? hlast hname, hmeaningful]
  simp [hsplit]

/-- First the extension is cut, then the dot. -/
theorem withoutExtension_of_pieces {stem ext : List Char}
    (hp : p.pieces = front ++ [stem ++ '.' :: ext])
    (hsplit : splitName (stem ++ '.' :: ext) = (stem, some ext))
    (hname : isName (stem ++ '.' :: ext)) (hdot : '.' ∉ stem) :
    p.withoutExtension = ofPieces p.isAbsolute (front ++ [stem]) := by
  have hstem : stem ≠ [] := (splitName_eq_some_iff.mp hsplit).2.1
  have hslash : '/' ∉ stem ++ ['.'] := by
    have hmem := slash_not_mem (hp ▸ List.mem_append_right _ (List.mem_singleton_self _))
    simp only [List.mem_append, not_or] at hmem
    simpa using hmem.1
  obtain ⟨hcutAbsolute, hcutPieces⟩ := ofPieces_replaced hp (by simp) hslash
  have hcutName : isName (stem ++ ['.']) := by
    obtain ⟨c, cs, rfl⟩ := List.exists_cons_of_ne_nil hstem
    have hc : c ≠ '.' := fun h => hdot (h ▸ List.mem_cons_self)
    cases cs <;> simp [isName, isVacuous, hc]
  have hcutSplit : splitName (stem ++ ['.']) = (stem, some []) :=
    splitName_eq_some_iff.mpr ⟨rfl, hstem, by simp, (isName_iff.mp hcutName).2⟩
  have hlast : p.pieces.getLast? = some (stem ++ '.' :: ext) := by rw [hp, List.getLast?_concat]
  have hextension : p.extension? = some (String.ofList ext) := by
    simp [extension?, fileName?_of_getLast? hlast hname, hsplit]
  have hcut : p.pieces = front ++ [stem ++ ['.'] ++ ext] := by simpa using hp
  have htext := take_text hcut
  unfold withoutExtension
  simp only [hextension, ← String.length_toList, String.toList_ofList] at htext ⊢
  rw [htext, String.ofList_toList, throughStem_of_pieces hcutPieces hcutName hcutSplit,
    hcutAbsolute]

/-- A file name is cut in front of the dot before its extension, and the rest of the path stays. -/
theorem steps_withoutExtension {name : String} {stem ext : List Char} (ht : p.Trimmed)
    (hname : p.fileName? = some name) (hsplit : splitName name.toList = (stem, some ext))
    (hdot : '.' ∉ stem) : p.withoutExtension.lead = p.lead ∧
      ∃ before, p.steps = before ++ [name.toList] ∧
        p.withoutExtension.steps = before ++ [stem] := by
  obtain ⟨hlast, hisName⟩ := ht.getLast? hname
  obtain ⟨front, hpieces⟩ := List.getLast?_eq_some_iff.mp hlast
  obtain ⟨happend, hstem, -⟩ := splitName_eq_some_iff.mp hsplit
  have hslash : '/' ∉ stem := fun h => slash_not_mem
    (hpieces ▸ List.mem_append_right _ (List.mem_singleton_self _))
    (happend ▸ List.mem_append_left _ h)
  obtain ⟨habsolute, hcut⟩ := ofPieces_replaced hpieces hstem hslash
  rw [happend] at hpieces hsplit hisName ⊢
  rw [← withoutExtension_of_pieces hpieces hsplit hisName hdot] at habsolute hcut
  exact steps_of_pieces_concat habsolute.symm hpieces hcut (isName_iff.mp hisName).1
    (isName_iff.mp (isName_of_not_mem hstem hdot)).1

end Rebuild.Path
