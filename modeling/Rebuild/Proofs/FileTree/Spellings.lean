import Mathlib
import Rebuild.Classpath
import Rebuild.Proofs.FileTree.Names

/-! Spellings of one path. Main statements: spellings that end alike, and that the system takes
alike, lead to the same entry; and whatever spellings of one path lead to something, it is the same
thing. -/
namespace Rebuild

namespace Path

variable {p q : Path}

/-- Does the path end in a slash or in a dot? It leads to directories only then. -/
def endsOpen (p : Path) : Bool := p.pieces.getLast?.any isVacuous

/-- The pieces along which a path leads: those that count, and an empty one that asks for a
directory. -/
def way (p : Path) : List (List Char) := p.steps ++ if p.endsOpen then [[]] else []

/-- Is the path one that is not too long for the system? -/
def isShort (p : Path) : Bool := p.text.utf8ByteSize ≤ FileTree.maxPathSize

/-- Spellings of one path that no tree of files tells apart. -/
structure Alike (p q : Path) : Prop where
  components : p.components = q.components
  ending : p.endsOpen = q.endsOpen
  size : p.isShort = q.isShort

theorem words_eq_of_components (h : p.components = q.components) : p.words = q.words :=
  components_eq_iff.mp h

theorem components_eq_of_words (h : p.words = q.words) : p.components = q.components :=
  components_eq_iff.mpr h

theorem text_eq_empty_iff : p.text = "" ↔ p.words = [] :=
  ⟨words_of_empty, fun h => of_not_not fun hne => words_ne_nil hne h⟩

theorem steps_eq_of_words (h : p.words = q.words) : p.steps = q.steps := by
  by_cases hq : q.text = ""
  · have hp : p.text = "" := text_eq_empty_iff.mpr (h.trans (text_eq_empty_iff.mp hq))
    rw [steps_eq, steps_eq, hp, hq]
  · have hwords : p.words = q.words ++ [] := by rw [h, List.append_nil]
    rw [steps_of_words hwords hq, List.append_nil]

theorem nul_mem_text_iff : '\x00' ∈ p.text.toList ↔ ∃ word ∈ p.words, '\x00' ∈ word := by
  rw [mem_text_iff (by decide), words_eq]
  constructor
  · rintro ⟨piece, hpiece, hnul⟩
    have hcounts : ¬ isVacuous piece := by
      intro hvacuous
      simp only [isVacuous, Bool.or_eq_true, beq_iff_eq] at hvacuous
      rcases hvacuous with rfl | rfl <;> simp at hnul
    have hstep : piece ∈ p.steps := List.mem_filter.mpr ⟨hpiece, by simp [hcounts]⟩
    exact ⟨piece, List.mem_append_right _ hstep, hnul⟩
  · rintro ⟨word, hword, hnul⟩
    rcases List.mem_append.mp hword with hlead | hstep
    · rcases lead_cases p with ⟨-, h⟩ | ⟨-, h, -⟩ | ⟨-, h, -⟩ <;> rw [h] at hlead
      · rw [List.mem_singleton.mp hlead] at hnul
        simp at hnul
      · rw [List.mem_singleton.mp hlead] at hnul
        simp at hnul
      · cases hlead
    · exact ⟨word, (steps_spec hstep).1, hnul⟩

/-- What is put behind spellings of one path is put behind the same path. -/
theorem Alike.join (h : p.components = q.components) {r : Path}
    (hsize : (p.join r).isShort = (q.join r).isShort) : (p.join r).Alike (q.join r) := by
  have hwords := words_eq_of_components h
  refine ⟨components_eq_of_words ?_, ?_, hsize⟩
  · cases hr : r.isAbsolute with
    | true => rw [join_of_isAbsolute hr, join_of_isAbsolute hr]
    | false =>
      by_cases hp : p.text = ""
      · have hq : q.text = "" := by rwa [text_eq_empty_iff, ← hwords, ← text_eq_empty_iff]
        rw [join_of_empty hp, join_of_empty hq]
      · have hq : q.text ≠ "" := by rwa [ne_eq, text_eq_empty_iff, ← hwords, ← text_eq_empty_iff]
        rw [words_join hp hr, words_join hq hr, hwords]
  · rw [endsOpen, endsOpen, getLast?_pieces_join, getLast?_pieces_join]

end Path

namespace FileTree

variable {t : FileTree} {p q : Path} {place : List String}

/-- Pieces that do not count lead nowhere, but the last one asks for a directory. -/
theorem follow_pieces (t : FileTree) (place : List String) (p : Path) :
    t.follow place p.pieces = t.follow place p.way := by
  have hlast := List.getLast?_eq_some_getLast (Path.pieces_ne_nil p)
  set last := p.pieces.getLast (Path.pieces_ne_nil p)
  obtain ⟨front, hfront⟩ := List.getLast?_eq_some_iff.mp hlast
  have hends : p.endsOpen = Path.isVacuous last := by rw [Path.endsOpen, hlast]; rfl
  rw [Path.way, hends, Path.steps, hfront, follow_filter_append, List.filter_append]
  by_cases hvacuous : Path.isVacuous last
  · rw [List.filter_cons_of_neg (by simp [hvacuous]), List.filter_nil, List.append_nil,
      if_pos hvacuous, follow_append, follow_append]
    congr 1
    funext next
    have hempty : Path.isVacuous [] := rfl
    simp only [follow, step_of_isVacuous hvacuous, step_of_isVacuous hempty]
  · rw [List.filter_cons_of_pos (by simp [hvacuous]), List.filter_nil, if_neg hvacuous,
      List.append_nil]

/-- Where a path leads is told by its words, by how it ends and by whether it is too long. -/
theorem resolve_eq_spelled (t : FileTree) (p : Path) : t.resolve p =
    if ∃ word ∈ p.words, '\x00' ∈ word then .error .invalidName
    else if p.words = [] then .error .notFound
    else if p.isShort then t.follow [] p.way
    else .error .nameTooLong := by
  have hsize : p.text.utf8ByteSize > maxPathSize ↔ ¬ p.isShort := by simp [Path.isShort]
  unfold resolve pieces
  simp only [List.contains_iff_mem, Path.nul_mem_text_iff, Path.text_eq_empty_iff, hsize,
    ← follow_pieces]
  split_ifs <;> rfl

/-- Spellings that are taken alike are refused alike too. -/
theorem resolve_eq_of_alike (t : FileTree) (h : p.Alike q) : t.resolve p = t.resolve q := by
  have hwords := Path.words_eq_of_components h.components
  rw [resolve_eq_spelled, resolve_eq_spelled, Path.way, Path.way, hwords,
    Path.steps_eq_of_words hwords, h.ending, h.size]

/-- A path that asks for a directory is refused where there is none. -/
theorem follow_way (t : FileTree) (p : Path) :
    t.follow [] p.way = t.follow [] p.steps ∨ t.follow [] p.way = .error .notADirectory := by
  have hempty : Path.isVacuous [] := rfl
  rw [Path.way, follow_append]
  cases hfollow : t.follow [] p.steps with
  | error fault => exact .inl rfl
  | ok next =>
    cases p.endsOpen with
    | false => exact .inl rfl
    | true =>
      simp only [↓reduceIte, bind, Except.bind, follow, step_of_isVacuous hempty]
      cases t.isDirectoryAt next with
      | true => exact .inl rfl
      | false => exact .inr rfl

/-- Of two spellings of one path that do not lead to the same place, the system refuses one, and
not for want of an entry. -/
theorem resolve_eq_or_refused (t : FileTree) (h : p.components = q.components) :
    t.resolve p = t.resolve q ∨ ∃ fault, fault ≠ .notFound ∧
      (t.resolve p = .error fault ∨ t.resolve q = .error fault) := by
  have hwords := Path.words_eq_of_components h
  rw [resolve_eq_spelled, resolve_eq_spelled t q, hwords]
  split_ifs with hnul hnone hp hq hq
  · exact .inl rfl
  · exact .inl rfl
  · rcases t.follow_way p with hp | hp
    · rcases t.follow_way q with hq | hq
      · left
        rw [hp, hq, Path.steps_eq_of_words hwords]
      · exact .inr ⟨.notADirectory, by simp, .inr hq⟩
    · exact .inr ⟨.notADirectory, by simp, .inl hp⟩
  · exact .inr ⟨.nameTooLong, by simp, .inr rfl⟩
  · exact .inr ⟨.nameTooLong, by simp, .inl rfl⟩
  · exact .inl rfl

/-- Where one spelling of a path leads, every other one leads that the system takes and that does not
ask for a directory. -/
theorem resolve_of_components (h : p.components = q.components) (hp : t.resolve p = .ok place)
    (hend : q.endsOpen = false) (hsize : q.isShort) : t.resolve q = .ok place := by
  have hwords := Path.words_eq_of_components h
  rw [resolve_eq_spelled, hwords] at hp
  rw [resolve_eq_spelled, Path.way, hend, if_neg Bool.false_ne_true, List.append_nil]
  split_ifs at hp ⊢
  rw [← hp, ← Path.steps_eq_of_words hwords]
  rcases t.follow_way p with hway | hway
  · exact hway.symm
  · rw [hway] at hp
    cases hp

theorem lookup_congr (h : t.resolve p = t.resolve q) : t.lookup p = t.lookup q := by
  unfold lookup
  rw [h]

theorem read_congr (h : t.resolve p = t.resolve q) : t.read p = t.read q := by
  unfold read content
  rw [lookup_congr h]

theorem snapshot_congr (h : t.resolve p = t.resolve q) : t.snapshot p = t.snapshot q := by
  unfold snapshot
  rw [lookup_congr h]

theorem snapshot_of_refused {fault : FileFault} (h : t.resolve p = .error fault)
    (hfault : fault ≠ .notFound) : t.snapshot p = .error fault := by
  have hlookup : t.lookup p = .error fault := by
    unfold lookup
    rw [h]
    rfl
  unfold snapshot
  rw [hlookup]
  cases fault with
  | notFound => exact absurd rfl hfault
  | _ => rfl

/-- Archives of one path that can be opened have the same members. -/
theorem snapshot_unique (h : p.components = q.components) {members others : Snapshot}
    (hp : t.snapshot p = .ok members) (hq : t.snapshot q = .ok others) : members = others := by
  rcases t.resolve_eq_or_refused h with hsame | ⟨fault, hfault, hrefused | hrefused⟩
  · rw [snapshot_congr hsame, hq] at hp
    exact (Except.ok.inj hp).symm
  · rw [snapshot_of_refused hrefused hfault] at hp
    cases hp
  · rw [snapshot_of_refused hrefused hfault] at hq
    cases hq

end FileTree

end Rebuild
