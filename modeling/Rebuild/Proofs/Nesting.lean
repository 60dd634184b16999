import Mathlib
import Rebuild.Artifact.ClassFile

/-! Nested types by their names. Main statement: going from a type to the type around it, as long as
there is one, ends at the outermost type, with one exception: a name that starts with `$` behind its
package and has another `$` counts as an outermost type although a type is around it. -/
namespace Rebuild

namespace Name

variable {sep : Char} {cs front tail outer : List Char} {binary name : String}

/-! ## The last separator -/

theorem throughLast_append_afterLast (sep : Char) (cs : List Char) :
    throughLast sep cs ++ afterLast sep cs = cs := by
  rw [throughLast, afterLast, ← List.reverse_append, List.takeWhile_append_dropWhile,
    List.reverse_reverse]

theorem not_mem_afterLast (sep : Char) (cs : List Char) : sep ∉ afterLast sep cs := by
  intro hmem
  have hne := List.mem_takeWhile_imp (List.mem_reverse.mp hmem)
  simp at hne

/-- What stands in front of the last separator, with it. -/
theorem throughLast_cases (sep : Char) (cs : List Char) :
    throughLast sep cs = [] ∨ ∃ before, throughLast sep cs = before ++ [sep] := by
  unfold throughLast
  rcases hrest : cs.reverse.dropWhile (· ≠ sep) with _ | ⟨c, rest⟩
  · exact .inl rfl
  · have hc := List.head?_dropWhile_not (· ≠ sep) cs.reverse
    rw [hrest] at hc
    obtain rfl : c = sep := by simpa using hc
    exact .inr ⟨rest.reverse, by rw [List.reverse_cons]⟩

/-- There is one way only to cut a text behind its last separator. -/
theorem cut_at_last (hfront : front = [] ∨ ∃ before, front = before ++ [sep])
    (htail : sep ∉ tail) :
    throughLast sep (front ++ tail) = front ∧ afterLast sep (front ++ tail) = tail := by
  have htaken : ∀ c ∈ tail.reverse, decide (c ≠ sep) = true := by
    intro c hc
    simpa using fun heq : c = sep => htail (heq ▸ List.mem_reverse.mp hc)
  unfold throughLast afterLast
  rw [List.reverse_append, List.takeWhile_append_of_pos htaken, List.dropWhile_append_of_pos htaken]
  rcases hfront with rfl | ⟨before, rfl⟩ <;> simp

/-! ## The type around a type -/

/-- A simple name up to the first `$` that does not stand at its front. -/
def topStem : List Char → List Char
  | [] => []
  | c :: rest => c :: rest.takeWhile (· ≠ '$')

/-- The outermost type that is found from inside, where `sep` ends the package. -/
def topChars (sep : Char) (cs : List Char) : List Char :=
  throughLast sep cs ++ topStem (afterLast sep cs)

/-- The part of a simple name in front of its last `$`, if there is any. -/
theorem stem_cases (tail : List Char) :
    let stem := (throughLast '$' tail).dropLast
    (∃ nested, '$' ∉ nested ∧ tail = stem ++ '$' :: nested) ∨ stem = [] ∧ '$' ∉ tail := by
  intro stem
  have htail := throughLast_append_afterLast '$' tail
  have hnested := not_mem_afterLast '$' tail
  rcases throughLast_cases '$' tail with hnone | ⟨before, hbefore⟩
  · right
    rw [hnone, List.nil_append] at htail
    exact ⟨by simp [stem, hnone], htail ▸ hnested⟩
  · left
    refine ⟨afterLast '$' tail, hnested, ?_⟩
    have hstem : stem = before := by simp [stem, hbefore]
    rw [hbefore] at htail
    rw [hstem, ← List.singleton_append, ← List.append_assoc, htail]

theorem outerChars_eq_some (h : outerChars sep cs = some outer) :
    ∃ c stem nested, '$' ∉ nested ∧ outer = throughLast sep cs ++ c :: stem ∧
      afterLast sep cs = c :: stem ++ '$' :: nested := by
  unfold outerChars at h
  simp only at h
  split_ifs at h with hstem
  obtain ⟨c, stem, hcons⟩ := List.exists_cons_of_ne_nil hstem
  rw [hcons] at h
  rcases stem_cases (afterLast sep cs) with ⟨nested, hnested, htail⟩ | ⟨hnil, -⟩
  · rw [hcons] at htail
    exact ⟨c, stem, nested, hnested, (Option.some.inj h).symm, htail⟩
  · exact absurd hnil hstem

/-- The type around a type has the same package, and its simple name ends before a `$`. -/
theorem cut_outerChars (h : outerChars sep cs = some outer) :
    ∃ c stem nested, throughLast sep outer = throughLast sep cs ∧
      afterLast sep outer = c :: stem ∧ afterLast sep cs = c :: stem ++ '$' :: nested := by
  obtain ⟨c, stem, nested, -, rfl, htail⟩ := outerChars_eq_some h
  have hsep : sep ∉ c :: stem := by
    intro hmem
    apply not_mem_afterLast sep cs
    rw [htail]
    exact List.mem_append_left _ hmem
  obtain ⟨hfront, hstem⟩ := cut_at_last (throughLast_cases sep cs) hsep
  exact ⟨c, stem, nested, hfront, hstem, htail⟩

theorem topChars_outerChars (h : outerChars sep cs = some outer) :
    topChars sep outer = topChars sep cs := by
  obtain ⟨c, stem, nested, hfront, hstem, htail⟩ := cut_outerChars h
  unfold topChars
  rw [hfront, hstem, htail]
  simp only [topStem, List.cons_append, List.takeWhile_append]
  split
  next hall => simpa using (List.takeWhile_prefix _).eq_of_length hall
  next => rfl

theorem length_outerChars (h : outerChars sep cs = some outer) : outer.length < cs.length := by
  obtain ⟨c, stem, nested, -, rfl, htail⟩ := outerChars_eq_some h
  have hlength := congrArg List.length (throughLast_append_afterLast sep cs)
  rw [htail] at hlength
  simp only [List.length_append, List.length_cons] at hlength ⊢
  omega

theorem topChars_of_outerChars_eq_none (h : outerChars sep cs = none) : topChars sep cs = cs := by
  unfold outerChars at h
  simp only at h
  split_ifs at h with hstem
  conv_rhs => rw [← throughLast_append_afterLast sep cs]
  unfold topChars
  congr 1
  have hlater : '$' ∉ (afterLast sep cs).tail := by
    rcases stem_cases (afterLast sep cs) with ⟨nested, hnested, htail⟩ | ⟨-, hnone⟩
    · rw [htail, hstem]
      exact hnested
    · exact fun hmem => hnone (List.mem_of_mem_tail hmem)
  rcases hcut : afterLast sep cs with _ | ⟨c, rest⟩
  · rfl
  · rw [hcut] at hlater
    rw [topStem, List.cons.injEq, List.takeWhile_eq_self_iff]
    refine ⟨rfl, fun c hc => ?_⟩
    simpa using fun heq : c = '$' => hlater (heq ▸ hc)

/-! ## Outermost types -/

/-- The type at which going from a type to the type around it ends. -/
def top (binary : String) : String := String.ofList (topChars '.' binary.toList)

theorem outer?_eq_some {outer : String} :
    outer? binary = some outer ↔ outerChars '.' binary.toList = some outer.toList := by
  unfold outer?
  rw [Option.map_eq_some_iff]
  constructor
  · rintro ⟨cs, hcs, rfl⟩
    rw [hcs, String.toList_ofList]
  · intro h
    exact ⟨outer.toList, h, String.ofList_toList⟩

theorem top_outer {outer : String} (h : outer? binary = some outer) : top outer = top binary := by
  unfold top
  rw [topChars_outerChars (outer?_eq_some.mp h)]

theorem top_of_outer?_eq_none (h : outer? binary = none) : top binary = binary := by
  unfold top
  rw [topChars_of_outerChars_eq_none (Option.map_eq_none_iff.mp h), String.ofList_toList]

/-- Each step makes the name shorter, so there is a last one. -/
theorem reaches_top (binary : String) :
    Relation.ReflTransGen (fun name outer => outer? name = some outer) binary (top binary) ∧
      outer? (top binary) = none := by
  induction hn : binary.toList.length using Nat.strong_induction_on generalizing binary with
  | _ n ih =>
    rcases houter : outer? binary with _ | outer
    · rw [top_of_outer?_eq_none houter]
      exact ⟨.refl, houter⟩
    · have hshorter := length_outerChars (outer?_eq_some.mp houter)
      obtain ⟨hreach, hlast⟩ := ih _ (hn ▸ hshorter) outer rfl
      rw [top_outer houter] at hreach hlast
      exact ⟨hreach.head houter, hlast⟩

/-- The types around a type are told up to the last one. -/
theorem getLast?_enclosingUpTo {n : Nat} (hn : binary.length ≤ n) :
    (enclosingUpTo n binary).getLast? = some (top binary) := by
  induction n generalizing binary with
  | zero =>
    obtain rfl : binary = "" := String.length_eq_zero_iff.mp (Nat.le_zero.mp hn)
    rfl
  | succ n ih =>
    unfold enclosingUpTo
    split
    next hnone => rw [top_of_outer?_eq_none hnone, List.getLast?_singleton]
    next outer houter =>
      have hshorter := length_outerChars (outer?_eq_some.mp houter)
      rw [String.length_toList, String.length_toList] at hshorter
      rw [List.getLast?_cons, ih (by omega), top_outer houter]
      rfl

theorem mem_enclosingUpTo {n : Nat} (h : name ∈ enclosingUpTo n binary) :
    Relation.ReflTransGen (fun name outer => outer? name = some outer) binary name := by
  induction n generalizing binary with
  | zero =>
    obtain rfl := List.mem_singleton.mp h
    exact .refl
  | succ n ih =>
    unfold enclosingUpTo at h
    split at h
    next =>
      obtain rfl := List.mem_singleton.mp h
      exact .refl
    next outer houter =>
      rcases List.mem_cons.mp h with rfl | h
      · exact .refl
      · exact (ih h).head houter

/-- The simple name starts with `$` and has another one. -/
def SeparatorLed (binary : String) : Prop :=
  ∃ rest, afterLast '.' binary.toList = '$' :: rest ∧ '$' ∈ rest

theorem SeparatorLed.of_outer {outer : String} (houter : outer? binary = some outer)
    (h : SeparatorLed outer) : SeparatorLed binary := by
  obtain ⟨c, stem, nested, -, hstem, htail⟩ := cut_outerChars (outer?_eq_some.mp houter)
  obtain ⟨rest, hrest, hlater⟩ := h
  rw [hstem] at hrest
  rw [hrest] at htail
  exact ⟨rest ++ '$' :: nested, htail, List.mem_append_left _ hlater⟩

/-- All types on the way have the same type at the end. -/
theorem same_of_reaches
    (h : Relation.ReflTransGen (fun name outer => outer? name = some outer) binary name) :
    top name = top binary ∧ (SeparatorLed name → SeparatorLed binary) := by
  induction h with
  | refl => exact ⟨rfl, id⟩
  | tail _ houter ih => exact ⟨(top_outer houter).trans ih.1, ih.2 ∘ .of_outer houter⟩

/-- Only where a name starts with a separator can the first separator miss the outermost type. -/
theorem top_eq_root_iff : top binary = root binary ↔ ¬ SeparatorLed binary := by
  unfold top root SeparatorLed
  rw [String.ofList_inj]
  have hwhole := throughLast_append_afterLast '.' binary.toList
  unfold topChars rootChars
  rcases hcut : afterLast '.' binary.toList with _ | ⟨c, rest⟩
  · rw [hcut] at hwhole
    simpa [topStem] using hwhole
  rw [hcut] at hwhole
  by_cases hc : c = '$'
  · subst hc
    have hstem : ('$' :: rest).takeWhile (· ≠ '$') = [] := by simp
    simp only [hstem, ↓reduceIte]
    nth_rewrite 2 [← hwhole]
    rw [topStem, List.append_cancel_left_eq, List.cons.injEq, List.takeWhile_eq_self_iff]
    constructor
    · rintro ⟨-, hall⟩ ⟨rest', heq, hmem⟩
      obtain rfl := (List.cons.inj heq).2
      simpa using hall '$' hmem
    · intro hnone
      refine ⟨rfl, fun d hd => ?_⟩
      simpa using fun heq : d = '$' => hnone ⟨rest, rfl, heq ▸ hd⟩
  · simp [topStem, hc]

/-! ## Internal names -/

theorem map_replace_of_notMem {a b : Char} (h : a ∉ cs) :
    cs.map (fun c => if c = a then b else c) = cs := by
  conv_rhs => rw [← List.map_id cs]
  apply List.map_congr_left
  intro c hc
  exact if_neg fun heq : c = a => h (heq ▸ hc)

theorem map_replace_back {a b : Char} (h : b ∉ cs) :
    (cs.map fun c => if c = a then b else c).map (fun c => if c = b then a else c) = cs := by
  rw [List.map_map]
  conv_rhs => rw [← List.map_id cs]
  apply List.map_congr_left
  intro c hc
  have hne : c ≠ b := fun heq => h (heq ▸ hc)
  by_cases hca : c = a <;> simp [hca, hne]

/-- The package of a name is the same in both spellings, up to the spelling. -/
theorem cut_toBinary (hdot : '.' ∉ cs) :
    let replaced := cs.map fun c => if c = '/' then '.' else c
    throughLast '.' replaced = (throughLast '/' cs).map (fun c => if c = '/' then '.' else c) ∧
      afterLast '.' replaced = afterLast '/' cs := by
  intro replaced
  have hwhole := throughLast_append_afterLast '/' cs
  have hreplaced : replaced =
      (throughLast '/' cs).map (fun c => if c = '/' then '.' else c) ++ afterLast '/' cs := by
    conv_rhs => rw [← map_replace_of_notMem (b := '.') (not_mem_afterLast '/' cs)]
    rw [← List.map_append, hwhole]
  rw [hreplaced]
  apply cut_at_last
  · rcases throughLast_cases '/' cs with hnone | ⟨before, hbefore⟩
    · exact .inl (by rw [hnone, List.map_nil])
    · exact .inr ⟨before.map fun c => if c = '/' then '.' else c, by rw [hbefore]; simp⟩
  · exact fun hmem => hdot (hwhole ▸ List.mem_append_right _ hmem)

/-- The outermost type is the same in both spellings of a name. -/
theorem rootInternal_eq {internal : String} (hdot : '.' ∉ internal.toList) :
    rootInternal internal = toInternal (root (toBinary internal)) := by
  obtain ⟨cs, rfl⟩ : ∃ cs, internal = String.ofList cs := ⟨_, String.ofList_toList.symm⟩
  rw [String.toList_ofList] at hdot
  unfold rootInternal root toBinary toInternal
  simp only [String.toList_ofList]
  congr 1
  have hwhole := throughLast_append_afterLast '/' cs
  obtain ⟨hthrough, hafter⟩ := cut_toBinary hdot
  unfold rootChars
  simp only [hthrough, hafter]
  split_ifs with hstem
  · exact (map_replace_back hdot).symm
  · have hfront : '.' ∉ throughLast '/' cs := fun hmem =>
      hdot (hwhole ▸ List.mem_append_left _ hmem)
    have hsimple : '.' ∉ (afterLast '/' cs).takeWhile (· ≠ '$') := fun hmem =>
      hdot (hwhole ▸ List.mem_append_right _ (List.takeWhile_subset _ hmem))
    rw [List.map_append, map_replace_back hfront, map_replace_of_notMem hsimple]

/-- Within a package a name without `$` at its front is followed by those of its nested types. -/
theorem isSelfOrNested_iff {top other : List Char} (htop : top ≠ []) (hmark : '$' ∉ top) :
    isSelfOrNested (String.ofList (front ++ top)) (String.ofList (front ++ other)) ↔
      other.takeWhile (· ≠ '$') = top := by
  have hall : ∀ c ∈ top, decide (c ≠ '$') = true := by
    intro c hc
    simpa using fun heq : c = '$' => hmark (heq ▸ hc)
  unfold isSelfOrNested
  rw [Bool.or_eq_true, beq_iff_eq, String.ofList_inj, List.append_cancel_left_eq,
    List.isPrefixOf_iff_prefix, String.toList_ofList, String.toList_ofList, List.append_assoc,
    List.prefix_append_right_inj]
  constructor
  · rintro (rfl | ⟨rest, rfl⟩)
    · exact List.takeWhile_eq_self_iff.mpr hall
    · rw [List.append_assoc, List.takeWhile_append_of_pos hall]
      simp
  · intro htaken
    have hother := List.takeWhile_append_dropWhile (p := fun c => decide (c ≠ '$')) (l := other)
    rw [htaken] at hother
    rcases hrest : other.dropWhile (· ≠ '$') with _ | ⟨c, rest⟩
    · left
      rw [← hother, hrest, List.append_nil]
    · right
      have hc := List.head?_dropWhile_not (fun c => decide (c ≠ '$')) other
      rw [hrest] at hc
      obtain rfl : c = '$' := by simpa using hc
      rw [← hother, hrest]
      exact ⟨rest, by simp⟩

/-- What counts as part of an artifact in its package is what has the same outermost type. -/
theorem isSelfOrNested_rootInternal {first : Char} {rest : List Char} {internal other : String}
    (hpackage : throughLast '/' other.toList = throughLast '/' internal.toList)
    (hsimple : afterLast '/' internal.toList = first :: rest) (hfirst : first ≠ '$') :
    isSelfOrNested (rootInternal internal) other ↔ rootInternal other = rootInternal internal := by
  obtain ⟨top, htop⟩ : ∃ top, top = (first :: rest).takeWhile (· ≠ '$') := ⟨_, rfl⟩
  have hne : top ≠ [] := by
    rw [htop, List.takeWhile_cons_of_pos (by simpa using hfirst)]
    exact List.cons_ne_nil _ _
  have hroot : rootInternal internal = String.ofList (throughLast '/' internal.toList ++ top) := by
    unfold rootInternal rootChars
    rw [hsimple, ← htop]
    exact congrArg String.ofList (if_neg hne)
  have hother : other = String.ofList
      (throughLast '/' internal.toList ++ afterLast '/' other.toList) := by
    rw [← hpackage, throughLast_append_afterLast, String.ofList_toList]
  have hmark : '$' ∉ top := by
    intro hmem
    have hmust := List.mem_takeWhile_imp (htop ▸ hmem)
    simp at hmust
  conv_lhs => rw [hroot, hother]
  rw [isSelfOrNested_iff hne hmark, hroot]
  unfold rootInternal rootChars
  rw [hpackage, String.ofList_inj]
  simp only
  split_ifs with hnone
  · -- A name without a part in front of its first `$` cannot be the outermost type.
    rw [hnone]
    refine ⟨fun h => absurd h.symm hne, fun h => ?_⟩
    have hwhole := (throughLast_append_afterLast '/' other.toList).trans h
    rw [hpackage, List.append_cancel_left_eq] at hwhole
    obtain ⟨c, others, hcons⟩ := List.exists_cons_of_ne_nil hne
    rw [hwhole, List.takeWhile_eq_nil_iff] at hnone
    have hc : c = '$' := by simpa [hcons] using hnone
    exact absurd (hcons ▸ hc ▸ List.mem_cons_self) hmark
  · rw [List.append_cancel_left_eq]

/-- Following a type outwards ends at the outermost type, and all types on the way have the same one,
unless its name starts with `$` behind the package and has another `$`. The outermost type of an
artifact is that of its binary name, and what counts as part of the artifact in its package is what
has this outermost type. -/
theorem outermost_types_agree (binary : String) (c : Artifact.ClassFile) :
    (∃ last, Relation.ReflTransGen (fun name outer => outer? name = some outer) binary last ∧
      outer? last = none ∧ (enclosing binary).getLast? = some last ∧
      (last = root binary ↔ ¬ SeparatorLed binary) ∧
      (¬ SeparatorLed binary → ∀ name ∈ enclosing binary, root name = last)) ∧
    ('.' ∉ c.thisClass.toList → c.rootClass = toInternal (root (toBinary c.thisClass))) ∧
    ∀ (other : String) (first : Char) (rest : List Char),
      throughLast '/' other.toList = throughLast '/' c.thisClass.toList →
      afterLast '/' c.thisClass.toList = first :: rest → first ≠ '$' →
      (c.isSelfOrNested other ↔ rootInternal other = c.rootClass) := by
  refine ⟨?_, rootInternal_eq, fun other first rest => ?_⟩
  · obtain ⟨hreach, hlast⟩ := reaches_top binary
    refine ⟨top binary, hreach, hlast, getLast?_enclosingUpTo (Nat.le_refl _), top_eq_root_iff, ?_⟩
    intro hled name hname
    obtain ⟨htop, hled'⟩ := same_of_reaches (mem_enclosingUpTo hname)
    rw [← top_eq_root_iff.mpr (hled ∘ hled'), htop]
  · exact isSelfOrNested_rootInternal

/-- An artifact whose name has doubled and trailing separators. -/
def separated : Artifact.ClassFile where
  minorVersion := 0
  majorVersion := 52
  access := 0x21
  thisClass := "p/A$$B$"
  superClass := none
  interfaces := []
  fields := []
  methods := []
  signature := none
  innerClasses := []
  pool := ⟨[]⟩

theorem outermost_types_agree_separated :
    enclosing "p.A$$B$" = ["p.A$$B$", "p.A$$B", "p.A$", "p.A"] ∧ ¬ SeparatorLed "p.A$$B$" ∧
      (∀ name ∈ enclosing "p.A$$B$", root name = "p.A") ∧
      separated.rootClass = toInternal (root (toBinary "p/A$$B$")) ∧
      (separated.isSelfOrNested "p/A$C" ↔ rootInternal "p/A$C" = separated.rootClass) := by
  have hled : ¬ SeparatorLed "p.A$$B$" := by
    rintro ⟨rest, hrest, -⟩
    cases hrest
  obtain ⟨⟨last, -, -, hlast, -, hall⟩, hroot, hpart⟩ := outermost_types_agree "p.A$$B$" separated
  obtain rfl : "p.A" = last := Option.some.inj hlast
  exact ⟨by decide, hled, hall hled, hroot (by decide),
    hpart "p/A$C" 'A' ['$', '$', 'B', '$'] (by decide) (by decide) (by decide)⟩

/-- The type around `$A$B` is `$A`, which nothing is around, but `$A$B` is taken for its own
outermost type. -/
theorem separator_led_disagrees :
    outer? "$A$B" = some "$A" ∧ outer? "$A" = none ∧ root "$A$B" ≠ "$A" := by
  decide

end Name

end Rebuild
