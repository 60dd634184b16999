import Mathlib

/-! Texts with brackets in them. Main statement: what stands between commas can be told apart, as
long as the brackets in it close and its own commas are within brackets. -/
namespace Rebuild.Brackets

/-- How much deeper the text behind a character is nested than the text before it. -/
def nesting : Char → Int
  | '<' | '(' => 1
  | '>' | ')' => -1
  | _ => 0

/-- The number of brackets that are open at the end of a text. -/
def depth (cs : List Char) : Int := (cs.map nesting).sum

@[simp] theorem depth_nil : depth [] = 0 := rfl

@[simp] theorem depth_cons (c : Char) (cs : List Char) : depth (c :: cs) = nesting c + depth cs := by
  simp [depth]

@[simp] theorem depth_append (a b : List Char) : depth (a ++ b) = depth a + depth b := by
  simp [depth]

/-- The brackets of a text close, each after it was opened. -/
structure Balanced (cs : List Char) : Prop where
  closed : depth cs = 0
  opened : ∀ a b, cs = a ++ b → 0 ≤ depth a

/-- A balanced text whose commas are within brackets. -/
structure Sealed (cs : List Char) : Prop extends Balanced cs where
  enclosed : ∀ a b, cs = a ++ ',' :: b → 0 < depth a

variable {a b u v x y : List Char}

namespace Balanced

theorem depth_suffix_le (h : Balanced (a ++ b)) : depth b ≤ 0 := by
  have ha : 0 ≤ depth a := h.opened a b rfl
  have hab : depth a + depth b = 0 := by simpa using h.closed
  omega

theorem append (ha : Balanced a) (hb : Balanced b) : Balanced (a ++ b) := by
  refine ⟨by simp [ha.closed, hb.closed], fun x y hxy => ?_⟩
  rcases List.append_eq_append_iff.mp hxy with ⟨as, rfl, rfl⟩ | ⟨bs, rfl, rfl⟩
  · rw [depth_append, ha.closed]
    have := hb.opened as y rfl
    omega
  · exact ha.opened x bs rfl

/-- Two balanced texts that stand behind the last bracket left open are the same. -/
theorem cancel (hu : Balanced u) (hv : Balanced v) (h : x ++ '<' :: u = y ++ '<' :: v) :
    x = y ∧ u = v := by
  have hdepth {w : List Char} (hw : Balanced w) : depth ('<' :: w) = 1 := by
    simp [hw.closed, nesting]
  rcases List.append_eq_append_iff.mp h with ⟨as, rfl, has⟩ | ⟨bs, rfl, hbs⟩
  · cases as with
    | nil => simpa using has
    | cons c as =>
      obtain ⟨rfl, rfl⟩ : '<' = c ∧ u = as ++ '<' :: v := by simpa using has
      have hle := hu.depth_suffix_le
      rw [hdepth hv] at hle
      omega
  · cases bs with
    | nil => simpa [eq_comm] using hbs
    | cons c bs =>
      obtain ⟨rfl, rfl⟩ : '<' = c ∧ v = bs ++ '<' :: u := by simpa using hbs
      have hle := hv.depth_suffix_le
      rw [hdepth hu] at hle
      omega

end Balanced

namespace Sealed

theorem append (ha : Sealed a) (hb : Sealed b) : Sealed (a ++ b) := by
  refine ⟨ha.toBalanced.append hb.toBalanced, fun x y hxy => ?_⟩
  rcases List.append_eq_append_iff.mp hxy with ⟨as, rfl, rfl⟩ | ⟨bs, rfl, hbs⟩
  · rw [depth_append, ha.closed]
    have := hb.enclosed as y rfl
    omega
  · cases bs with
    | nil =>
      have := hb.enclosed [] y (by simpa using hbs.symm)
      simp at this
    | cons c bs =>
      obtain ⟨rfl, rfl⟩ : ',' = c ∧ y = bs ++ b := by simpa using hbs
      exact ha.enclosed x bs rfl

/-- A balanced text in brackets. -/
theorem group {o c : Char} (ho : nesting o = 1) (hc : nesting c = -1) (hu : Balanced u) :
    Sealed (o :: (u ++ [c])) := by
  have hne {d : Char} (hd : nesting d ≠ 0) : ',' ≠ d := by
    rintro rfl
    exact hd rfl
  -- A proper beginning lies at least one bracket deep.
  have hopen (x y : List Char) (hy : y ≠ []) (hxy : u ++ [c] = x ++ y) : 0 ≤ depth x := by
    rcases List.append_eq_append_iff.mp hxy with ⟨as, rfl, has⟩ | ⟨bs, rfl, -⟩
    · cases as with
      | nil => simp [hu.closed]
      | cons d as => simp_all
    · exact hu.opened x bs rfl
  refine ⟨⟨by simp [ho, hc, hu.closed], fun x y hxy => ?_⟩, fun x y hxy => ?_⟩
  · cases x with
    | nil => simp
    | cons d x =>
      obtain ⟨rfl, hrest⟩ : o = d ∧ u ++ [c] = x ++ y := by simpa using hxy
      by_cases hy : y = []
      · subst hy
        rw [List.append_nil] at hrest
        simp [← hrest, ho, hc, hu.closed]
      · have := hopen x y hy hrest
        simp only [depth_cons, ho]
        omega
  · cases x with
    | nil =>
      obtain ⟨heq, -⟩ : o = ',' ∧ u ++ [c] = y := by simpa using hxy
      exact absurd heq.symm (hne (by omega))
    | cons d x =>
      obtain ⟨rfl, hrest⟩ : o = d ∧ u ++ [c] = x ++ ',' :: y := by simpa using hxy
      have := hopen x _ (by simp) hrest
      simp only [depth_cons, ho]
      omega

end Sealed

/-! ## Lists -/

/-- A text for each of a list, with a comma in front. -/
def listed (texts : List (List Char)) : List Char := texts.flatMap fun t => ',' :: t

theorem Balanced.intercalate {texts : List (List Char)} (h : ∀ t ∈ texts, Balanced t) :
    Balanced ([','].intercalate texts) := by
  have hcomma : Balanced [','] := by
    refine ⟨rfl, fun a b hab => ?_⟩
    rcases List.append_eq_singleton_iff.mp hab.symm with ⟨rfl, -⟩ | ⟨rfl, -⟩ <;> simp [nesting]
  induction texts with
  | nil => exact ⟨rfl, fun a b hab => by simp_all⟩
  | cons t rest ih =>
    cases rest with
    | nil => simpa using h t
    | cons t' rest =>
      rw [List.intercalate_cons_cons]
      exact ((h t (by simp)).append hcomma).append (ih fun s hs => h s (by simp [hs]))

end Rebuild.Brackets
