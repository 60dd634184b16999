import Mathlib
import Rebuild.Text.Split

/-! Splitting at a separator and joining with it. Main statement: texts that are joined with a
separator split into the pieces of each. -/
namespace Rebuild.Text

variable {sep c : Char} {cs piece : List Char} {texts : List (List Char)}

theorem splitChars_ne_nil (sep : Char) (cs : List Char) : splitChars sep cs ≠ [] := by
  cases cs with
  | nil => simp [splitChars]
  | cons c rest =>
    unfold splitChars
    split_ifs
    · simp
    · split <;> simp

theorem not_mem_splitChars (h : piece ∈ splitChars sep cs) : sep ∉ piece := by
  induction cs generalizing piece with
  | nil =>
    rw [List.mem_singleton.mp h]
    simp
  | cons c rest ih =>
    unfold splitChars at h
    split_ifs at h with hc
    · rcases List.mem_cons.mp h with rfl | h
      · simp
      · exact ih h
    · split at h
      next hnil => exact absurd hnil (splitChars_ne_nil sep rest)
      next first others hcons =>
        rcases List.mem_cons.mp h with rfl | h
        · have hfirst : sep ∉ first := ih (hcons ▸ List.mem_cons_self ..)
          simp [hfirst, Ne.symm hc]
        · exact ih (hcons ▸ List.mem_cons_of_mem _ h)

theorem splitChars_append (sep : Char) (cs more : List Char) :
    splitChars sep (cs ++ sep :: more) = splitChars sep cs ++ splitChars sep more := by
  induction cs with
  | nil => simp [splitChars]
  | cons c rest ih =>
    rw [List.cons_append, splitChars, splitChars, ih]
    split_ifs
    · rfl
    · rcases hsplit : splitChars sep rest with _ | ⟨piece, others⟩
      · exact absurd hsplit (splitChars_ne_nil sep rest)
      · rfl

theorem splitChars_of_not_mem (h : sep ∉ cs) : splitChars sep cs = [cs] := by
  induction cs with
  | nil => rfl
  | cons c rest ih =>
    obtain ⟨hc, hrest⟩ := List.ne_and_not_mem_of_not_mem_cons h
    rw [splitChars, if_neg (Ne.symm hc), ih hrest]

theorem intercalate_splitChars (sep : Char) (cs : List Char) :
    [sep].intercalate (splitChars sep cs) = cs := by
  have hhead (c : Char) (piece : List Char) (pieces : List (List Char)) :
      [sep].intercalate ((c :: piece) :: pieces) = c :: [sep].intercalate (piece :: pieces) := by
    cases pieces <;> simp
  induction cs with
  | nil => simp [splitChars]
  | cons c cs ih =>
    cases hpieces : splitChars sep cs with
    | nil => simp_all [splitChars]
    | cons piece pieces =>
      rw [hpieces] at ih
      by_cases hc : c = sep
      · simp [splitChars, hc, hpieces, ih]
      · simp [splitChars, hc, hpieces, hhead, ih]

/-- Joined texts are split where each of them is split. -/
theorem splitChars_intercalate (sep : Char) (hne : texts ≠ []) :
    splitChars sep ([sep].intercalate texts) = texts.flatMap (splitChars sep) := by
  induction texts with
  | nil => exact absurd rfl hne
  | cons text texts ih =>
    cases texts with
    | nil => simp
    | cons next texts =>
      rw [List.intercalate_cons_cons, List.append_assoc, List.singleton_append, splitChars_append,
        ih (by simp)]
      rfl

theorem flatMap_splitChars_of_not_mem (h : ∀ text ∈ texts, sep ∉ text) :
    texts.flatMap (splitChars sep) = texts := by
  have hsplit : texts.map (splitChars sep) = texts.map fun text => [text] :=
    List.map_congr_left fun text htext => splitChars_of_not_mem (h text htext)
  rw [List.flatMap_def, hsplit, ← List.flatMap_def, List.flatMap_singleton']

theorem splitChars_intercalate_of_not_mem (hne : texts ≠ []) (h : ∀ text ∈ texts, sep ∉ text) :
    splitChars sep ([sep].intercalate texts) = texts := by
  rw [splitChars_intercalate sep hne, flatMap_splitChars_of_not_mem h]

/-- What comes behind joined texts comes behind the last of them. -/
theorem intercalate_concat_append (sep : List Char) (front : List (List Char))
    (last more : List Char) :
    sep.intercalate (front ++ [last]) ++ more = sep.intercalate (front ++ [last ++ more]) := by
  induction front with
  | nil => simp
  | cons text front ih =>
    cases front with
    | nil => simp
    | cons next front =>
      simp only [List.cons_append, List.intercalate_cons_cons, List.append_assoc] at ih ⊢
      rw [ih]

/-- Splitting loses the separators only. -/
theorem mem_splitChars_iff (hc : c ≠ sep) : c ∈ cs ↔ ∃ piece ∈ splitChars sep cs, c ∈ piece := by
  induction cs with
  | nil => simp [splitChars]
  | cons first rest ih =>
    rw [List.mem_cons, ih, splitChars]
    split_ifs with hfirst
    · simp [hfirst, hc]
    · split
      next hnil => exact absurd hnil (splitChars_ne_nil sep rest)
      next piece pieces hcons => simp [hcons, or_assoc]

/-- What has no separator and comes behind a text comes behind its last piece. -/
theorem splitChars_append_of_not_mem {front : List (List Char)} {last more : List Char}
    (h : splitChars sep cs = front ++ [last]) (hmore : sep ∉ more) :
    splitChars sep (cs ++ more) = front ++ [last ++ more] := by
  have hcs := intercalate_splitChars sep cs
  rw [h] at hcs
  rw [← hcs, intercalate_concat_append]
  refine splitChars_intercalate_of_not_mem (by simp) fun text htext => ?_
  rcases List.mem_append.mp htext with htext | htext
  · exact not_mem_splitChars (h ▸ List.mem_append_left _ htext)
  · rw [List.mem_singleton.mp htext, List.mem_append, not_or]
    exact ⟨not_mem_splitChars (h ▸ List.mem_append_right _ (List.mem_singleton_self _)), hmore⟩

/-- Where one separator is written for another, the text splits at both. -/
theorem splitChars_replace (a b : Char) (cs : List Char) :
    splitChars b (cs.map fun c => if c = a then b else c) =
      (splitChars a cs).flatMap (splitChars b) := by
  induction cs with
  | nil => rfl
  | cons c cs ih =>
    rw [List.map_cons, splitChars, ih, splitChars]
    by_cases ha : c = a
    · simp [ha, splitChars]
    · obtain ⟨first, others, hsplit⟩ := List.exists_cons_of_ne_nil (splitChars_ne_nil a cs)
      obtain ⟨start, more, hfirst⟩ := List.exists_cons_of_ne_nil (splitChars_ne_nil b first)
      by_cases hb : c = b
      · subst hb
        simp [ha, hsplit, hfirst, splitChars]
      · simp [ha, hb, hsplit, hfirst, splitChars]

end Rebuild.Text
