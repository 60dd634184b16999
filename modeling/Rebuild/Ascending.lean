/-!
Finite sets as strictly ascending lists. Main statements: what is in a set after an element
was put in or taken out.
-/
namespace Rebuild.Ascending

variable {α : Type u} [LT α] [DecidableLT α] [DecidableEq α]

def insert (a : α) : List α → List α
  | [] => [a]
  | b :: rest =>
    if a < b then a :: b :: rest
    else if a = b then b :: rest
    else b :: insert a rest

def erase (a : α) (set : List α) : List α := set.filter (· ≠ a)

def ofList (elements : List α) : List α := elements.foldl (fun set a => insert a set) []

/-- The elements of `s` that are not in `t`. -/
def difference (s t : List α) : List α := s.filter (· ∉ t)

omit [LT α] [DecidableLT α] in
@[simp] theorem mem_erase {a b : α} {set : List α} : a ∈ erase b set ↔ a ∈ set ∧ a ≠ b := by
  simp [erase]

@[simp] theorem mem_insert {a b : α} {set : List α} : a ∈ insert b set ↔ a = b ∨ a ∈ set := by
  induction set with
  | nil => simp [insert]
  | cons c rest ih =>
    by_cases h : b < c
    · simp [insert, h]
    · by_cases h' : b = c
      · subst h'; simp [insert, h]
      · simp [insert, h, h', ih]; grind

end Rebuild.Ascending
