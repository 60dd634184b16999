import Mathlib
import Rebuild.Ascending

/-! Strictly ascending lists are determined by their members, so that comparing two of them
compares the sets that they stand for. -/
namespace Rebuild.Ascending

variable {α : Type*} [LT α] [DecidableLT α] [DecidableEq α]

theorem mem_foldl_insert {a : α} (elements set : List α) :
    a ∈ elements.foldl (fun set b => insert b set) set ↔ a ∈ elements ∨ a ∈ set := by
  induction elements generalizing set with
  | nil => simp
  | cons b rest ih =>
    rw [List.foldl_cons, ih, mem_insert, List.mem_cons]
    tauto

@[simp] theorem mem_ofList {a : α} {elements : List α} : a ∈ ofList elements ↔ a ∈ elements := by
  simp [ofList, mem_foldl_insert]

omit [LT α] [DecidableLT α] in
@[simp] theorem mem_difference {a : α} {s t : List α} : a ∈ difference s t ↔ a ∈ s ∧ a ∉ t := by
  simp [difference]

/-- The lists that stand for sets. -/
abbrev IsSet (set : List α) : Prop := set.Pairwise (· < ·)

omit [DecidableLT α] [DecidableEq α] in
theorem IsSet.ext [Std.Asymm (α := α) (· < ·)] {s t : List α} (hs : IsSet s) (ht : IsSet t)
    (h : ∀ a, a ∈ s ↔ a ∈ t) : s = t := by
  have : Std.Antisymm (α := α) (· < ·) :=
    ⟨fun a b hab hba => False.elim (Std.Asymm.asymm a b hab hba)⟩
  exact List.Pairwise.eq_of_mem_iff hs ht h

omit [DecidableLT α] in
theorem IsSet.erase {set : List α} (h : IsSet set) (a : α) : IsSet (erase a set) :=
  List.Pairwise.filter _ h

section Insertion
variable [IsTrans α (· < ·)] [Std.Trichotomous (α := α) (· < ·)]

theorem IsSet.insert {set : List α} (h : IsSet set) (a : α) : IsSet (insert a set) := by
  induction set with
  | nil => simp [Ascending.insert]
  | cons b rest ih =>
    obtain ⟨hb, hrest⟩ := List.pairwise_cons.mp h
    rw [Ascending.insert]
    split_ifs with hab heq
    · refine List.pairwise_cons.mpr ⟨fun c hc => ?_, h⟩
      rcases List.mem_cons.mp hc with rfl | hc
      · exact hab
      · exact IsTrans.trans a b c hab (hb c hc)
    · exact h
    · refine List.pairwise_cons.mpr ⟨fun c hc => ?_, ih hrest⟩
      rcases mem_insert.mp hc with rfl | hc
      · by_contra hbc
        exact heq (Std.Trichotomous.trichotomous c b hab hbc)
      · exact hb c hc

theorem IsSet.foldl_insert (elements : List α) {set : List α} (h : IsSet set) :
    IsSet (elements.foldl (fun set a => Ascending.insert a set) set) := by
  induction elements generalizing set with
  | nil => exact h
  | cons a rest ih => exact ih (h.insert a)

theorem isSet_ofList (elements : List α) : IsSet (ofList elements) :=
  IsSet.foldl_insert elements .nil

end Insertion

end Rebuild.Ascending
