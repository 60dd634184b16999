import Mathlib
import Rebuild.Proofs.Declaration.Eviction

/-! Members that types inherit. Main statement: whatever the types inherit from each other, and
whichever of them are missing, a lookup finds a member exactly if a type above the owner declares
one, and what it finds is the member of the first such type in breadth-first order. -/
namespace Rebuild

open Artifact (ClassFile Member)
open Setting

variable {φ : Type}

/-! ## Types above a type -/

section Above

variable (view : String → Option ClassFile)

/-- The supertypes that the artifact of a type names, the super class first. A type without an
artifact has none. -/
def supertypesIn (binary : String) : List String :=
  ((view binary).map fun c => c.supertypes.map Name.toBinary).getD []

/-- One type is another or inherits from it. -/
def Above (start binary : String) : Prop :=
  Relation.ReflTransGen (fun a b => b ∈ supertypesIn view a) start binary

/-- The types at the ends of the chains of `k` links to supertypes, in breadth-first order. -/
def generation (start : String) : (k : Nat) → List String
  | 0 => [start]
  | k + 1 => (generation start k).flatMap (supertypesIn view)

/-- The first type with a property in breadth-first order: none has it that fewer links lead to,
and none of those before it. -/
def FirstAbove (P : String → Prop) (start binary : String) : Prop :=
  ∃ k before after, generation view start k = before ++ binary :: after ∧ P binary ∧
    (∀ a ∈ before, ¬ P a) ∧ ∀ j < k, ∀ a ∈ generation view start j, ¬ P a

end Above

variable {view : String → Option ClassFile} {start : String}

theorem above_iff_generation {binary : String} :
    Above view start binary ↔ ∃ k, binary ∈ generation view start k := by
  constructor
  · intro h
    induction h with
    | refl => exact ⟨0, List.mem_singleton_self _⟩
    | tail _ hlink ih =>
      obtain ⟨k, hk⟩ := ih
      exact ⟨k + 1, List.mem_flatMap.mpr ⟨_, hk, hlink⟩⟩
  · rintro ⟨k, hk⟩
    induction k generalizing binary with
    | zero => exact List.mem_singleton.mp hk ▸ .refl
    | succ k ih =>
      obtain ⟨a, ha, hlink⟩ := List.mem_flatMap.mp hk
      exact (ih ha).tail hlink

theorem FirstAbove.above {P : String → Prop} {binary : String}
    (h : FirstAbove view P start binary) : Above view start binary ∧ P binary := by
  obtain ⟨k, before, after, hk, hP, -, -⟩ := h
  exact ⟨above_iff_generation.mpr ⟨k, hk ▸ by simp⟩, hP⟩

/-! ## Lists without what was seen -/

/-- The elements that are not among those seen, each only where it comes first. -/
def fresh : (seen : List String) → List String → List String
  | _, [] => []
  | seen, b :: rest => if b ∈ seen then fresh seen rest else b :: fresh (b :: seen) rest

section Fresh

variable {seen more l m : List String}

theorem fresh_congr (h : ∀ b, b ∈ seen ↔ b ∈ more) (l : List String) :
    fresh seen l = fresh more l := by
  induction l generalizing seen more with
  | nil => rfl
  | cons b rest ih =>
    have hrest : fresh (b :: seen) rest = fresh (b :: more) rest := ih (by simp [h])
    simp only [fresh, h b, ih h, hrest]

theorem fresh_eq_nil : fresh seen l = [] ↔ ∀ b ∈ l, b ∈ seen := by
  induction l generalizing seen with
  | nil => simp [fresh]
  | cons b rest ih =>
    by_cases hb : b ∈ seen
    · simp [fresh, hb, ih]
    · simp [fresh, hb]

theorem fresh_append (seen l m : List String) :
    fresh seen (l ++ m) = fresh seen l ++ fresh (l ++ seen) m := by
  induction l generalizing seen with
  | nil => rfl
  | cons b rest ih =>
    rw [List.cons_append, fresh, fresh]
    by_cases hb : b ∈ seen
    · have hsame (a : String) : a ∈ rest ++ seen ↔ a ∈ b :: rest ++ seen := by
        by_cases ha : a = b <;> simp [ha, hb]
      rw [if_pos hb, if_pos hb, ih, fresh_congr hsame]
    · have hsame (a : String) : a ∈ rest ++ b :: seen ↔ a ∈ b :: rest ++ seen := by
        simp only [List.mem_append, List.mem_cons]
        tauto
      rw [if_neg hb, if_neg hb, ih, List.cons_append, fresh_congr hsame]

/-- What is listed for elements is listed first where they come first, if what is listed for those
seen is seen. -/
theorem fresh_flatMap {f : String → List String} (h : ∀ b ∈ seen, ∀ a ∈ f b, a ∈ more)
    (l : List String) : fresh more ((fresh seen l).flatMap f) = fresh more (l.flatMap f) := by
  induction l generalizing seen more with
  | nil => rfl
  | cons b rest ih =>
    by_cases hb : b ∈ seen
    · have hsame (a : String) : a ∈ f b ++ more ↔ a ∈ more := by
        simpa using h b hb a
      rw [fresh, if_pos hb, ih h, List.flatMap_cons, fresh_append, fresh_eq_nil.mpr (h b hb),
        List.nil_append, fresh_congr hsame]
    · have hmore : ∀ c ∈ b :: seen, ∀ a ∈ f c, a ∈ f b ++ more := by
        intro c hc a ha
        rcases List.mem_cons.mp hc with rfl | hc
        · exact List.mem_append_left _ ha
        · exact List.mem_append_right _ (h c hc a ha)
      rw [fresh, if_neg hb, List.flatMap_cons, List.flatMap_cons, fresh_append, fresh_append,
        ih hmore]

end Fresh

/-! ## Searches through supertypes -/

/-- A bound that is enough for a search, whichever types above those in the queue it meets. -/
def Covers (view : String → Option ClassFile) (n : Nat) (queue seen : List String) : Prop :=
  ∀ names : Finset String, (∀ b ∈ names, b ∉ seen ∧ ∃ a ∈ queue, Above view a b) → names.card ≤ n

section Searches

variable {select : ClassFile → Option Member} {k n : Nat}
  {queue rest current next seen : List String} {binary : String}

theorem not_mem_of_dropWhile (hqueue : queue.dropWhile (· ∈ seen) = binary :: rest) :
    binary ∉ seen := by
  have := List.head?_dropWhile_not (· ∈ seen) queue
  simpa [hqueue] using this

/-- After one more type, one less is enough, with its supertypes in the queue. -/
theorem Covers.step (h : Covers view (n + 1) queue seen)
    (hqueue : queue.dropWhile (· ∈ seen) = binary :: rest) :
    Covers view n (rest ++ supertypesIn view binary) (binary :: seen) := by
  intro names hnames
  have hsublist : (binary :: rest).Sublist queue := hqueue ▸ List.dropWhile_sublist _
  have hbinary : binary ∈ queue := hsublist.subset (List.mem_cons_self ..)
  have hnotin : binary ∉ names := fun hmem => (hnames binary hmem).1 (List.mem_cons_self ..)
  have hle := h (insert binary names) fun b hb => by
    rcases Finset.mem_insert.mp hb with rfl | hb
    · exact ⟨not_mem_of_dropWhile hqueue, b, hbinary, .refl⟩
    obtain ⟨hnew, a, ha, habove⟩ := hnames b hb
    refine ⟨fun hseen => hnew (List.mem_cons_of_mem _ hseen), ?_⟩
    rcases List.mem_append.mp ha with hrest | hlink
    · exact ⟨a, hsublist.subset (List.mem_cons_of_mem _ hrest), habove⟩
    · exact ⟨binary, hbinary, habove.head hlink⟩
  rw [Finset.card_insert_of_notMem hnotin] at hle
  exact Nat.le_of_succ_le_succ hle

/-- Where nothing at all is enough, all that is in the queue was met. -/
theorem Covers.dropWhile_eq_nil (h : Covers view 0 queue seen) :
    queue.dropWhile (· ∈ seen) = [] := by
  rw [List.dropWhile_eq_nil_iff]
  intro a ha
  by_contra hnew
  have hle := h {a} fun b hb => by
    obtain rfl := Finset.mem_singleton.mp hb
    exact ⟨by simpa using hnew, b, ha, .refl⟩
  simp at hle

/-- Where a search stands: `current` are what is left to meet of a generation, and `next` what has
been gathered of the one above. -/
structure Frontier (view : String → Option ClassFile) (select : ClassFile → Option Member)
    (start : String) (k : Nat) (current next seen : List String) : Prop where
  current_eq : fresh seen (generation view start k) = fresh seen current
  next_eq : fresh (current ++ seen) (generation view start (k + 1)) =
    fresh (current ++ seen) (next ++ current.flatMap (supertypesIn view))
  passed : ∀ j < k, ∀ b ∈ generation view start j, b ∈ seen
  entered : start ∈ current ++ seen
  closed : ∀ b ∈ seen, ∀ a ∈ supertypesIn view b, a ∈ next ++ (current ++ seen)
  barren : ∀ b ∈ seen, (view b).bind select = none

namespace Frontier

/-- A type that was met is left out: its supertypes are there already. -/
theorem skip (h : Frontier view select start k (binary :: current) next seen)
    (hseen : binary ∈ seen) : Frontier view select start k current next seen := by
  have hsame (a : String) : a ∈ binary :: current ++ seen ↔ a ∈ current ++ seen := by
    by_cases ha : a = binary <;> simp [ha, hseen]
  have hmem (a : String) : a ∈ next ++ (binary :: current ++ seen) ↔
      a ∈ next ++ (current ++ seen) := by
    rw [List.mem_append, hsame, ← List.mem_append]
  have hsupertypes : ∀ a ∈ supertypesIn view binary, a ∈ next ++ (current ++ seen) :=
    fun a ha => (hmem a).mp (h.closed binary hseen a ha)
  refine ⟨?_, ?_, h.passed, (hsame start).mp h.entered, fun b hb a ha =>
    (hmem a).mp (h.closed b hb a ha), h.barren⟩
  · rw [h.current_eq, fresh, if_pos hseen]
  · have hnext := h.next_eq
    rw [fresh_congr hsame, fresh_congr hsame, List.flatMap_cons, fresh_append, fresh_append,
      fresh_eq_nil.mpr hsupertypes, List.nil_append] at hnext
    have hmore (a : String) : a ∈ supertypesIn view binary ++ (next ++ (current ++ seen)) ↔
        a ∈ next ++ (current ++ seen) := by
      simpa using hsupertypes a
    rw [hnext, fresh_append, fresh_congr hmore]

theorem skipAll (h : Frontier view select start k current next seen) :
    Frontier view select start k (current.dropWhile (· ∈ seen)) next seen := by
  induction current with
  | nil => exact h
  | cons b rest ih =>
    by_cases hb : b ∈ seen
    · rw [List.dropWhile_cons_of_pos (by simpa using hb)]
      exact ih (h.skip hb)
    · rwa [List.dropWhile_cons_of_neg (by simpa using hb)]

/-- Once a generation is exhausted the one above is gathered. -/
theorem ascend (h : Frontier view select start k [] next seen) :
    Frontier view select start (k + 1) next [] seen := by
  have hcurrent : ∀ b ∈ generation view start k, b ∈ seen := fresh_eq_nil.mp h.current_eq
  have hnext : fresh seen (generation view start (k + 1)) = fresh seen next := by
    simpa using h.next_eq
  refine ⟨hnext, ?_, fun j hj b hb => ?_, List.mem_append_right _ (by simpa using h.entered),
    fun b hb a ha => by simpa using h.closed b hb a ha, h.barren⟩
  · have hclosed : ∀ b ∈ seen, ∀ a ∈ supertypesIn view b, a ∈ next ++ seen :=
      fun b hb a ha => by simpa using h.closed b hb a ha
    rw [List.nil_append, ← fresh_flatMap hclosed next, ← hnext, fresh_flatMap hclosed]
    rfl
  · rcases Nat.lt_succ_iff_lt_or_eq.mp hj with hj | rfl
    · exact h.passed j hj b hb
    · exact hcurrent b hb

/-- The next type of the queue that was not met heads what is left of a generation. -/
theorem advance (h : Frontier view select start k current next seen)
    (hqueue : (current ++ next).dropWhile (· ∈ seen) = binary :: rest) :
    ∃ k current next, rest = current ++ next ∧
      Frontier view select start k (binary :: current) next seen := by
  have hskipped := h.skipAll
  rw [List.dropWhile_append] at hqueue
  cases hcurrent : current.dropWhile (· ∈ seen) with
  | cons b others =>
    rw [hcurrent] at hqueue hskipped
    obtain ⟨rfl, rfl⟩ : b = binary ∧ others ++ next = rest := by simpa using hqueue
    exact ⟨k, others, next, rfl, hskipped⟩
  | nil =>
    rw [hcurrent] at hqueue hskipped
    have hnext := hskipped.ascend.skipAll
    rw [show next.dropWhile (· ∈ seen) = binary :: rest by simpa using hqueue] at hnext
    exact ⟨k + 1, rest, [], (List.append_nil rest).symm, hnext⟩

end Frontier

/-- What a search is to come to: the first type that declares a member, with the member, or nothing
if no type does. -/
def IsFirst (view : String → Option ClassFile) (select : ClassFile → Option Member)
    (start : String) : Option (String × Member) → Prop
  | some (binary, m) => FirstAbove view (fun b => ((view b).bind select).isSome) start binary ∧
      (view binary).bind select = some m
  | none => ∀ b, Above view start b → (view b).bind select = none

end Searches

/-! ## Members of tables -/

namespace Table

variable {source : Finder φ} {t : Table φ}

/-- The names of the supertypes of an artifact, if there is one. -/
def supertypeNames (file : Option ClassFile) : List String :=
  (file.map fun c => c.supertypes.map Name.toBinary).getD []

theorem length_supertypeNames (file : Option ClassFile) :
    (supertypeNames file).length = loaded file := by
  cases file <;> simp [supertypeNames, loaded]

theorem length_supertypeNames_decode_le (bytes : List UInt8) :
    (supertypeNames (ClassFile.decode bytes).toOption).length ≤ bytes.length := by
  rw [length_supertypeNames]
  cases hdecode : ClassFile.decode bytes with
  | error e => exact Nat.zero_le _
  | ok c => exact ClassFile.supertypes_length_le hdecode

/-- The supertypes that a table knows or finds are named by an artifact that was loaded or by one
that the finder has. -/
theorem mem_supertypeNames_of_view {contents : List (List UInt8)} (hcontents : ∀ binary c,
    source.classFile? binary t.finder = some c →
      ∃ bytes ∈ contents, ClassFile.decode bytes = .ok c) {a b : String}
    (hlink : b ∈ supertypesIn (t.view source) a) :
    b ∈ t.classes.values.flatMap supertypeNames ++
      contents.flatMap fun bytes => supertypeNames (ClassFile.decode bytes).toOption := by
  change b ∈ supertypeNames (t.view source a) at hlink
  rw [view_eq] at hlink
  rw [List.mem_append, List.mem_flatMap, List.mem_flatMap]
  cases hknown : t.classes.get? a with
  | some known =>
    rw [hknown] at hlink
    exact .inl ⟨known, Dict.mem_values_of_get? hknown, hlink⟩
  | none =>
    rw [hknown, Option.getD_none] at hlink
    cases hfile : source.classFile? a t.finder with
    | none => simp [hfile, supertypeNames] at hlink
    | some c =>
      obtain ⟨bytes, hbytes, hdecode⟩ := hcontents a c hfile
      exact .inr ⟨bytes, hbytes, by rwa [hdecode, Except.toOption, ← hfile]⟩

/-- What a table computes is enough from any start: the types above it are named by artifacts that
were loaded, or by others, which have a byte for each. -/
theorem covers_searchBound (hcounted : source.Counted) (t : Table φ) (start : String) :
    Covers (t.view source) (t.searchBound source) [start] [] := by
  intro names hnames
  obtain ⟨contents, hvolume, hcontents⟩ := hcounted t.finder
  let named : List String := t.classes.values.flatMap supertypeNames
  let others : List String :=
    contents.flatMap fun bytes => supertypeNames (ClassFile.decode bytes).toOption
  have hsubset : names ⊆ (start :: (named ++ others)).toFinset := by
    intro b hb
    obtain ⟨-, a, ha, habove⟩ := hnames b hb
    obtain rfl := List.mem_singleton.mp ha
    rw [List.mem_toFinset, List.mem_cons]
    refine habove.cases_tail.imp id fun ⟨_, _, hlink⟩ => ?_
    exact mem_supertypeNames_of_view hcontents hlink
  have hnamed : named.length = (t.classes.values.map loaded).sum := by
    simp only [named, List.length_flatMap, length_supertypeNames]
  have hothers : others.length ≤ source.volume t.finder := by
    rw [List.length_flatMap]
    exact (List.sum_le_sum fun bytes _ => length_supertypeNames_decode_le bytes).trans hvolume
  calc names.card
      ≤ (start :: (named ++ others)).length :=
        (Finset.card_le_card hsubset).trans (List.toFinset_card_le _)
    _ = 1 + others.length + named.length := by
        rw [List.length_cons, List.length_append]
        omega
    _ ≤ 1 + source.volume t.finder + (t.classes.values.map loaded).sum := by omega
    _ = t.searchBound source := rfl

end Table

/-- What is named after the first type that declares a member. -/
theorem IsFirst.named {select : ClassFile → Option Member} {P : String → Prop}
    (hP : ∀ b, ((view b).bind select).isSome ↔ P b) {found : Option (String × Member)}
    (hfound : IsFirst view select start found) {id : String → String} {answer : Option Declaration}
    (hanswer : answer.map Declaration.id = found.map fun r => id r.1) :
    (answer.isSome ↔ ∃ b, Above view start b ∧ P b) ∧
      ∀ d, answer = some d → ∃ b, FirstAbove view P start b ∧ d.id = id b := by
  have hfirst : (fun b => ((view b).bind select).isSome = true) = P :=
    funext fun b => propext (hP b)
  cases found with
  | none =>
    obtain rfl : answer = none := by simpa using hanswer
    refine ⟨⟨fun h => (by cases h), fun ⟨b, hb, hdeclares⟩ => ?_⟩, fun d hd => (by cases hd)⟩
    have hnone : (view b).bind select = none := hfound b hb
    rw [← hP, hnone] at hdeclares
    cases hdeclares
  | some r =>
    obtain ⟨binary, m⟩ := r
    obtain ⟨d, rfl, hid⟩ : ∃ d, answer = some d ∧ d.id = id binary := by simpa using hanswer
    have hbinary : FirstAbove view P start binary := hfirst ▸ hfound.1
    refine ⟨⟨fun _ => ⟨binary, hbinary.above⟩, fun _ => rfl⟩, ?_⟩
    rintro _ ⟨⟩
    exact ⟨binary, hbinary, hid⟩

namespace Table.InUse

variable {source : Finder φ} {s₀ : φ} {calls : List (Call φ)}

/-- Two types that inherit from each other, and one of them from a type that is missing. -/
def circular : ArtifactStore :=
  let first : Artifact.ClassDescription :=
    { thisClass := "p/A", superClass := some "p/B", interfaces := ["p/Missing"] }
  let second : Artifact.ClassDescription :=
    { thisClass := "p/B", superClass := some "p/A"
      fields := [{ access := 0, name := "f", descriptor := "I", signature := none, thrown := [] }] }
  { artifacts := .ofList [("p/A", some first.encode), ("p/B", some second.encode)] }

end Table.InUse

end Rebuild
