import Mathlib
import Rebuild.Build.Order

/-! The order of a pass exists whatever the dependencies are, and it has each of the given files.
When all remaining files are blocked, each has a dependency among them, so that some cycle is
found. -/
namespace Rebuild.Build.Order

variable {dependencies : FileId → List FileId} {remaining : List FileId}

theorem mem_successors {file d : FileId} (h : d ∈ successors dependencies remaining file) :
    d ∈ remaining := by
  have hd := (List.mem_filter.mp h).2
  exact (of_decide_eq_true hd).2

/-- Without a frontier each remaining file has a dependency among them. -/
theorem successors_ne_nil (h : frontier dependencies remaining = []) {file : FileId}
    (hfile : file ∈ remaining) : successors dependencies remaining file ≠ [] := by
  have hfilter := List.filter_eq_nil_iff.mp h file hfile
  simpa using hfilter

/-! ## Searches -/

/-- A trail that never leaves some files. -/
def Trail.Within (files : List FileId) (t : Trail) : Prop := ∀ x ∈ t.file :: t.back, x ∈ files

theorem of_mem_scan {seed : FileId} {trail : Trail} {nexts visited : List FileId}
    {trails : List Trail} {visited' : List FileId}
    (h : scan seed trail nexts visited = some (trails, visited')) :
    ∀ t ∈ trails, t.file ∈ nexts ∧ t.back = trail.file :: trail.back := by
  induction nexts generalizing visited trails visited' with
  | nil =>
    cases h
    simp
  | cons next rest ih =>
    unfold scan at h
    have htail {found : List FileId} {more : List Trail} {last : List FileId}
        (hrest : scan seed trail rest found = some (more, last)) :
        ∀ t ∈ more, t.file ∈ next :: rest ∧ t.back = trail.file :: trail.back := by
      intro t ht
      obtain ⟨hfile, hback⟩ := ih hrest t ht
      exact ⟨List.mem_cons_of_mem next hfile, hback⟩
    split_ifs at h with hseed hvisited
    · exact htail h
    · obtain ⟨⟨more, last⟩, hrest, heq⟩ := Option.map_eq_some_iff.mp h
      cases heq
      intro t ht
      rcases List.mem_cons.mp ht with rfl | ht
      · exact ⟨List.mem_cons_self .., rfl⟩
      · exact htail hrest t ht

theorem search_within {edges : FileId → List FileId} (hedges : ∀ x, edges x ⊆ remaining)
    {seed : FileId} {n : Nat} {queue : List Trail} {visited cycle : List FileId}
    (hqueue : ∀ t ∈ queue, t.Within remaining)
    (h : search edges seed n queue visited = some cycle) : cycle ≠ [] ∧ cycle ⊆ remaining := by
  induction n generalizing queue visited with
  | zero => cases h
  | succ n ih =>
    rcases queue with _ | ⟨trail, queue⟩
    · cases h
    · have htrail : trail.Within remaining := hqueue trail (List.mem_cons_self ..)
      unfold search at h
      split at h
      next hscan =>
        cases h
        refine ⟨by simp [Trail.toList], fun x hx => htrail x ?_⟩
        exact List.mem_reverse.mp hx
      next trails visited' hscan =>
        refine ih (fun t ht => ?_) h
        rcases List.mem_append.mp ht with ht | ht
        · exact hqueue t (List.mem_cons_of_mem trail ht)
        · obtain ⟨hfile, hback⟩ := of_mem_scan hscan t ht
          intro x hx
          rcases List.mem_cons.mp hx with rfl | hx
          · exact hedges _ hfile
          · exact htrail x (hback ▸ hx)

theorem of_bestCycle? {cycleThrough? : FileId → Option (List FileId)} {seeds : List FileId}
    {best : Option (List FileId)} {cycle : List FileId}
    (h : bestCycle? cycleThrough? seeds best = some cycle) :
    best = some cycle ∨ ∃ seed ∈ seeds, cycleThrough? seed = some cycle := by
  induction seeds generalizing best with
  | nil => exact .inl h
  | cons seed seeds ih =>
    have hrest {found : Option (List FileId)} (hfound : bestCycle? cycleThrough? seeds found =
        some cycle) : found = some cycle ∨ ∃ s ∈ seed :: seeds, cycleThrough? s = some cycle := by
      rcases ih hfound with hbest | ⟨s, hs, hcycle⟩
      · exact .inl hbest
      · exact .inr ⟨s, List.mem_cons_of_mem seed hs, hcycle⟩
    have hseed {c : List FileId} (hc : cycleThrough? seed = some c) :
        ∃ s ∈ seed :: seeds, cycleThrough? s = some c := ⟨seed, List.mem_cons_self .., hc⟩
    rw [bestCycle?] at h
    split at h
    next => exact hrest h
    next found hfound =>
      -- The better of two cycles is one of them.
      rcases best with _ | b
      · simp only at h
        split_ifs at h
        · exact .inr (hseed (hfound.trans h))
        · rcases hrest h with heq | hmem
          · exact .inr (hseed (hfound.trans heq))
          · exact .inr hmem
      · simp only at h
        split_ifs at h with hlt
        · exact .inr (hseed (hfound.trans h))
        · rcases hrest h with heq | hmem
          · exact .inr (hseed (hfound.trans heq))
          · exact .inr hmem
        · exact .inl h
        · exact hrest h

/-- A walk along first edges comes back before it has used up the remaining files. -/
theorem walk_within {edges : FileId → List FileId} (hedges : ∀ x, edges x ⊆ remaining)
    (hnext : ∀ x ∈ remaining, edges x ≠ []) {n : Nat} {trail : Trail}
    (htrail : trail.Within remaining) (hnodup : (trail.file :: trail.back).Nodup)
    (hn : remaining.length < n + (trail.file :: trail.back).length) :
    walk edges n trail ≠ [] ∧ walk edges n trail ⊆ remaining := by
  induction n generalizing trail with
  | zero =>
    have hle := (hnodup.subperm htrail).length_le
    omega
  | succ n ih =>
    unfold walk
    split
    next hnil => exact absurd hnil (hnext trail.file (htrail _ (List.mem_cons_self ..)))
    next next rest hcons =>
      have hmem : next ∈ remaining := hedges trail.file (hcons ▸ List.mem_cons_self ..)
      split_ifs with hback
      · refine ⟨by simp, fun x hx => ?_⟩
        rcases List.mem_cons.mp hx with rfl | hx
        · exact hmem
        · exact htrail x (List.takeWhile_subset _ (List.mem_reverse.mp hx))
      · refine ih (fun x hx => ?_) (List.nodup_cons.mpr ⟨hback, hnodup⟩) ?_
        · rcases List.mem_cons.mp hx with rfl | hx
          · exact hmem
          · exact htrail x hx
        · simp only [List.length_cons] at hn ⊢
          omega

/-! ## Blocks -/

theorem smallestCycle_within (probeLimit : Nat) (h : frontier dependencies remaining = [])
    (hne : remaining ≠ []) : smallestCycle dependencies probeLimit remaining ≠ [] ∧
      smallestCycle dependencies probeLimit remaining ⊆ remaining := by
  have hedges (x : FileId) : successors dependencies remaining x ⊆ remaining :=
    fun _ => mem_successors
  unfold smallestCycle
  simp only
  split
  next cycle hcycle =>
    rcases of_bestCycle? hcycle with hnone | ⟨seed, hseed, hthrough⟩
    · cases hnone
    · refine search_within hedges (fun t ht => ?_) hthrough
      rw [List.mem_singleton.mp ht]
      intro x hx
      rw [List.mem_singleton.mp hx]
      exact List.take_subset _ _ hseed
  next =>
    rcases remaining with _ | ⟨first, rest⟩
    · exact absurd rfl hne
    · refine walk_within hedges (fun x hx => successors_ne_nil h hx) ?_ (by simp) (by simp)
      intro x hx
      rw [List.mem_singleton.mp hx]
      exact List.mem_cons_self ..

theorem nextBlock_within (probeLimit : Nat) (hne : remaining ≠ []) :
    nextBlock dependencies probeLimit remaining ≠ [] ∧
      nextBlock dependencies probeLimit remaining ⊆ remaining := by
  unfold nextBlock
  split
  next hfrontier =>
    obtain ⟨hcycle, hsubset⟩ := smallestCycle_within probeLimit hfrontier hne
    obtain ⟨x, hx⟩ := List.exists_mem_of_ne_nil _ hcycle
    refine ⟨List.ne_nil_of_mem (a := x) ?_, fun _ hy => (List.mem_filter.mp hy).1⟩
    exact List.mem_filter.mpr ⟨hsubset hx, by simpa using hx⟩
  next hfrontier =>
    exact ⟨fun hnil => hfrontier hnil, fun _ hy => (List.mem_filter.mp hy).1⟩

/-- As many blocks as there are files are enough, since no block is empty. -/
theorem blocks_eq_ok (probeLimit : Nat) {n : Nat} (hn : remaining.length ≤ n) :
    ∃ found, blocks dependencies probeLimit n remaining = .ok found ∧
      ∀ file, file ∈ found.flatten ↔ file ∈ remaining := by
  induction n generalizing remaining with
  | zero =>
    obtain rfl : remaining = [] := List.length_eq_zero_iff.mp (Nat.le_zero.mp hn)
    exact ⟨[], rfl, by simp⟩
  | succ n ih =>
    rcases hremaining : remaining with _ | ⟨first, rest⟩
    · exact ⟨[], rfl, by simp⟩
    · rw [← hremaining]
      have hne : remaining ≠ [] := by simp [hremaining]
      obtain ⟨hblock, hsubset⟩ := @nextBlock_within dependencies remaining probeLimit hne
      rw [blocks]
      · split
        next hnil => exact absurd hnil hblock
        next block hcons =>
          obtain ⟨x, hx⟩ := List.exists_mem_of_ne_nil _ hblock
          have hshorter : (remaining.filter (· ∉ nextBlock dependencies probeLimit
              remaining)).length < remaining.length :=
            List.length_filter_lt_length_iff_exists.mpr ⟨x, hsubset hx, by simpa using hx⟩
          obtain ⟨found, hfound, hmem⟩ := ih (Nat.le_of_lt_succ (hshorter.trans_le hn))
          refine ⟨_ :: found, by rw [hfound]; rfl, fun file => ?_⟩
          rw [List.flatten_cons, List.mem_append, hmem, List.mem_filter, decide_eq_true_eq]
          constructor
          · rintro (hfile | hfile)
            · exact hsubset hfile
            · exact hfile.1
          · intro hfile
            by_cases hin : file ∈ nextBlock dependencies probeLimit remaining
            · exact .inl hin
            · exact .inr ⟨hfile, hin⟩
      · exact hne

/-- There always are blocks, and an order made of them. -/
theorem exists_blocks (nodes : List FileId) (dependencies : FileId → List FileId)
    (probeLimit : Nat) :
    ∃ found, blocks dependencies probeLimit nodes.eraseDups.length nodes.eraseDups = .ok found ∧
      topological nodes dependencies probeLimit = .ok found.flatten ∧
      ∀ file, file ∈ found.flatten ↔ file ∈ nodes := by
  obtain ⟨found, hfound, hmem⟩ := @blocks_eq_ok dependencies _ probeLimit _
    (Nat.le_refl nodes.eraseDups.length)
  refine ⟨found, hfound, ?_, ?_⟩
  · rw [topological, hfound]
    rfl
  · intro file
    rw [hmem, List.mem_eraseDups]

/-- There always is an order, and it has the given files. -/
theorem topological_eq_ok (nodes : List FileId) (dependencies : FileId → List FileId)
    (probeLimit : Nat) : ∃ order, topological nodes dependencies probeLimit = .ok order ∧
      ∀ file, file ∈ order ↔ file ∈ nodes := by
  obtain ⟨found, -, horder, hmem⟩ := exists_blocks nodes dependencies probeLimit
  exact ⟨found.flatten, horder, hmem⟩

end Rebuild.Build.Order
