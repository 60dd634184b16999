import Mathlib
import Rebuild.Proofs.Workspace.Construction

/-! Depth-first searches over names. Main statements: the bound of a search is enough; the search
meets what its start leads to and nothing else; and its answer depends only on where the names that
it meets lead. -/
namespace Rebuild.Workspace

variable {next next' : String → List String} {stack seen visited : List String}

/-- A search that runs until its stack is empty: the names it meets, in order. -/
inductive Visits (next : String → List String) :
    (stack seen visited : List String) → Prop where
  | done (seen : List String) : Visits next [] seen []
  | skip {name : String} {stack seen visited : List String} (hseen : name ∈ seen)
      (rest : Visits next stack seen visited) : Visits next (name :: stack) seen visited
  | meet {name : String} {stack seen visited : List String} (hnew : name ∉ seen)
      (rest : Visits next (next name ++ stack) (name :: seen) visited) :
      Visits next (name :: stack) seen (name :: visited)

/-! ## Bounds -/

/-- A name that is met takes its edges away from those that are still to be followed. -/
theorem countP_meet_le {sources : List String} {name : String} (hnew : name ∉ seen) :
    sources.countP (· ∉ name :: seen) + sources.count name ≤ sources.countP (· ∉ seen) := by
  induction sources with
  | nil => simp
  | cons source sources ih =>
    simp only [List.mem_cons, not_or] at ih
    simp only [List.countP_cons, List.count_cons, List.mem_cons, not_or]
    by_cases hname : source = name
    · simp only [hname, hnew, not_true_eq_false, not_false_eq_true, false_and, decide_true,
        decide_false, Bool.false_eq_true, ↓reduceIte, beq_self_eq_true]
      omega
    · simp only [hname, not_false_eq_true, true_and, beq_iff_eq, ↓reduceIte]
      omega

/-- A step for each name on the stack and one for each edge that leaves a name not yet seen are
enough. The edges are counted by the names that they leave. -/
theorem preorder_visits {sources : List String}
    (hsources : ∀ name, (next name).length ≤ sources.count name) {n : Nat}
    (hn : stack.length + sources.countP (· ∉ seen) ≤ n) :
    Visits next stack seen (preorder next n stack seen) := by
  induction n generalizing stack seen with
  | zero =>
    obtain rfl : stack = [] := List.length_eq_zero_iff.mp (by omega)
    exact .done seen
  | succ n ih =>
    rcases stack with _ | ⟨name, stack⟩
    · exact .done seen
    · rw [List.length_cons] at hn
      unfold preorder
      split
      next hseen =>
        apply Visits.skip hseen
        apply ih
        omega
      next hnew =>
        apply Visits.meet hnew
        apply ih
        have hedges := hsources name
        have hcount := @countP_meet_le seen sources name hnew
        rw [List.length_append]
        omega

/-! ## What is met -/

namespace Visits

/-- A stack and what was seen leave no choice. -/
theorem unique {visited' : List String} (h : Visits next stack seen visited)
    (h' : Visits next stack seen visited') : visited = visited' := by
  induction h generalizing visited' with
  | done seen =>
    cases h'
    rfl
  | skip hseen _ ih =>
    cases h' with
    | skip _ rest => exact ih rest
    | meet hnew _ => exact absurd hseen hnew
  | meet hnew _ ih =>
    cases h' with
    | skip hseen _ => exact absurd hseen hnew
    | meet _ rest => rw [ih rest]

/-- Edges of names that are not met do not matter. -/
theorem congr (h : Visits next stack seen visited)
    (hnext : ∀ name ∈ visited, next' name = next name) : Visits next' stack seen visited := by
  induction h with
  | done seen => exact .done seen
  | skip hseen _ ih => exact .skip hseen (ih hnext)
  | @meet name stack _ _ hnew _ ih =>
    obtain ⟨hname, hrest⟩ := List.forall_mem_cons.mp hnext
    have hvisits := ih hrest
    rw [← hname] at hvisits
    exact .meet hnew hvisits

/-- What is met can be reached from the stack. -/
theorem reachable (h : Visits next stack seen visited) :
    ∀ name ∈ visited, ∃ start ∈ stack,
      Relation.ReflTransGen (fun a b => b ∈ next a) start name := by
  induction h with
  | done seen => simp
  | skip _ _ ih =>
    intro name hname
    obtain ⟨start, hstart, hreach⟩ := ih name hname
    exact ⟨start, List.mem_cons_of_mem _ hstart, hreach⟩
  | @meet first stack _ _ _ _ ih =>
    intro name hname
    rcases List.mem_cons.mp hname with rfl | hname
    · exact ⟨name, List.mem_cons_self .., .refl⟩
    · obtain ⟨start, hstart, hreach⟩ := ih name hname
      rcases List.mem_append.mp hstart with hstart | hstart
      · exact ⟨first, List.mem_cons_self .., hreach.head hstart⟩
      · exact ⟨start, List.mem_cons_of_mem first hstart, hreach⟩

/-- What is on the stack, and what a name that is met leads to, is met unless it was seen. -/
theorem closed (h : Visits next stack seen visited) :
    (∀ name ∈ stack, name ∈ visited ∨ name ∈ seen) ∧
      ∀ name ∈ visited, ∀ d ∈ next name, d ∈ visited ∨ d ∈ seen := by
  induction h with
  | done seen => simp
  | skip hseen _ ih =>
    refine ⟨?_, ih.2⟩
    intro name hname
    rcases List.mem_cons.mp hname with rfl | hname
    · exact .inr hseen
    · exact ih.1 name hname
  | @meet first stack seen visited _ _ ih =>
    have hmet {d : String} (hd : d ∈ visited ∨ d ∈ first :: seen) :
        d ∈ first :: visited ∨ d ∈ seen := by
      simp only [List.mem_cons] at hd ⊢
      tauto
    constructor
    · intro name hname
      rcases List.mem_cons.mp hname with rfl | hname
      · exact .inl (List.mem_cons_self ..)
      · exact hmet (ih.1 name (List.mem_append_right _ hname))
    · intro name hname d hd
      rcases List.mem_cons.mp hname with rfl | hname
      · exact hmet (ih.1 d (List.mem_append_left _ hd))
      · exact hmet (ih.2 name hname d hd)

/-- A search that starts afresh meets what its start leads to and nothing else. -/
theorem mem_iff {start : String} (h : Visits next [start] [] visited) {name : String} :
    name ∈ visited ↔ Relation.ReflTransGen (fun a b => b ∈ next a) start name := by
  constructor
  · intro hname
    obtain ⟨start', hstart, hreach⟩ := h.reachable name hname
    exact List.mem_singleton.mp hstart ▸ hreach
  · intro hreach
    obtain ⟨hstack, hnext⟩ := h.closed
    induction hreach with
    | refl => simpa using hstack start (List.mem_singleton_self start)
    | tail _ hd ih => simpa using hnext _ ih _ hd

end Visits

/-! ## Searches among projects -/

variable {w w' : Workspace} {name other : String}

theorem mem_directDependencies_iff :
    other ∈ w.directDependencies name ↔ ∃ p, w.project? name = some p ∧ other ∈ p.dependsOn := by
  unfold directDependencies
  cases w.project? name <;> simp

/-- The bound has a step for the start and one for each listing. -/
theorem fits_searchBound {sources : List String}
    (h : sources.length = (w.projects.values.map fun p => p.dependsOn.length).sum) :
    [name].length + sources.countP (· ∉ ([] : List String)) ≤ w.searchBound := by
  have hcount := List.countP_le_length (p := fun source => decide (source ∉ ([] : List String)))
    (l := sources)
  rw [searchBound, ← List.sum_eq_foldr, List.length_singleton]
  omega

/-- Each listing of a name is an edge of the project that lists it. -/
theorem reached_visits (w : Workspace) (hnamed : w.Named) (name : String) :
    Visits w.directDependencies [name] []
      (preorder w.directDependencies w.searchBound [name] []) := by
  let sources := w.projects.values.flatMap fun p => List.replicate p.dependsOn.length p.name
  apply @preorder_visits _ _ _ sources
  · intro start
    unfold directDependencies
    cases hp : w.project? start with
    | none => simp
    | some p =>
      have hentry := Dict.mem_entries_of_get? hp
      have hvalue : p ∈ w.projects.values := List.mem_map_of_mem hentry
      have hname : p.name = start := hnamed _ hentry
      have hsublist := List.sublist_flatten_of_mem
        (List.mem_map_of_mem (f := fun p : Project =>
          List.replicate p.dependsOn.length p.name) hvalue)
      have hcount := hsublist.count_le start
      rw [List.count_replicate] at hcount
      simpa [sources, List.flatMap, hname] using hcount
  · apply fits_searchBound
    simp [sources, List.length_flatMap]

/-- Each listing of a name is an edge of the name. -/
theorem affectedBy_visits (w : Workspace) (name : String) :
    Visits w.directDependents [name] [] (w.affectedBy name) := by
  let sources := w.projects.values.flatMap Project.dependsOn
  apply @preorder_visits _ _ _ sources
  · intro start
    rw [directDependents, List.length_map]
    show _ ≤ (w.projects.values.flatMap Project.dependsOn).count start
    induction w.projects.values with
    | nil => simp
    | cons p projects ih =>
      rw [List.flatMap_cons, List.count_append, List.filter_cons]
      split
      next hlists =>
        have hpos : 0 < p.dependsOn.count start := List.count_pos_iff.mpr (by simpa using hlists)
        rw [List.length_cons]
        omega
      next => omega
  · apply fits_searchBound
    simp [sources, List.length_flatMap]

end Rebuild.Workspace
