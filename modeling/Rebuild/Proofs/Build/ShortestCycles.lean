import Mathlib
import Rebuild.Proofs.Build.Blocks

/-! Shortest cycles. The search through a file visits the others in the order of their distances, so
that it comes back to the file by a shortest way, if any. Main statement: the cycle that is broken
is a shortest one of those through the files that are tried, if there are any. -/
namespace Rebuild.Build.Order

variable {dependencies : FileId → List FileId} {remaining : List FileId}
  {edges : FileId → List FileId} {seed : FileId}

/-! ## Ways round a cycle -/

theorem Way.of_isChain {leadsTo : FileId → FileId → Prop} {start last : FileId}
    {between : List FileId} (h : (start :: (between ++ [last])).IsChain leadsTo) :
    ∃ file, Way leadsTo start between.length file ∧ leadsTo file last := by
  induction between generalizing start with
  | nil => exact ⟨start, .start, (List.isChain_cons_cons.mp h).1⟩
  | cons next between ih =>
    obtain ⟨hedge, hrest⟩ := List.isChain_cons_cons.mp h
    obtain ⟨file, hway, hlast⟩ := ih hrest
    exact ⟨file, hway.cons hedge, hlast⟩

theorem exists_way_of_transGen {leadsTo : FileId → FileId → Prop} {start d : FileId}
    (h : Relation.TransGen leadsTo start d) :
    ∃ n file, Way leadsTo start n file ∧ leadsTo file d := by
  induction h with
  | single hedge => exact ⟨0, start, .start, hedge⟩
  | tail _ hedge ih =>
    obtain ⟨n, file, hway, hlast⟩ := ih
    exact ⟨n + 1, _, hway.step hlast, hedge⟩

/-- The way round a cycle, from any of its files on, has as many steps as the cycle has files. -/
theorem IsCycle.exists_way {leadsTo : FileId → FileId → Prop} {files : List FileId}
    (h : IsCycle leadsTo files) {file : FileId} (hfile : file ∈ files) :
    ∃ n last, Way leadsTo file n last ∧ leadsTo last file ∧ files.length = n + 1 := by
  obtain ⟨before, after, rfl⟩ := List.append_of_mem hfile
  have hrotated : (before ++ file :: after) ~r (file :: (after ++ before)) :=
    List.isRotated_append
  have hchain := h.chain
  rw [Cycle.coe_eq_coe.mpr hrotated, Cycle.chain_coe_cons] at hchain
  obtain ⟨last, hway, hlast⟩ := Way.of_isChain hchain
  refine ⟨_, last, hway, hlast, ?_⟩
  simp only [List.length_append, List.length_cons]
  omega

/-- No file depends on itself here, so that two files are the fewest for a cycle. -/
theorem IsCycle.two_le {files : List FileId}
    (h : IsCycle (DependsOn dependencies remaining) files) : 2 ≤ files.length := by
  obtain ⟨file, hfile⟩ := List.exists_mem_of_ne_nil _ h.ne_nil
  obtain ⟨n, last, hway, hlast, hlength⟩ := h.exists_way hfile
  cases hway with
  | start => exact absurd rfl hlast.2.1
  | step => omega

/-! ## One scan -/

/-- A scan that goes on has met no edge to the seed, and all that it met is visited now. -/
theorem scan_visits {trail : Trail} {nexts visited visited' : List FileId} {trails : List Trail}
    (h : scan seed trail nexts visited = some (trails, visited')) :
    (∀ next ∈ nexts, next ≠ seed ∧ next ∈ visited') ∧
      ∀ x ∈ visited', x ∈ visited ∨ ∃ t ∈ trails, t.file = x := by
  induction nexts generalizing visited trails visited' with
  | nil =>
    cases h
    simp
  | cons next rest ih =>
    have hsubset := (visited_of_scan h).1
    unfold scan at h
    split_ifs at h with hseed hvisited
    · obtain ⟨hrest, hnew⟩ := ih h
      refine ⟨fun x hx => ?_, hnew⟩
      rcases List.mem_cons.mp hx with rfl | hx
      · exact ⟨hseed, hsubset hvisited⟩
      · exact hrest x hx
    · obtain ⟨⟨more, last⟩, hscan, heq⟩ := Option.map_eq_some_iff.mp h
      cases heq
      obtain ⟨hrest, hnew⟩ := ih hscan
      constructor
      · intro x hx
        rcases List.mem_cons.mp hx with rfl | hx
        · exact ⟨hseed, (visited_of_scan hscan).1 (List.mem_cons_self ..)⟩
        · exact hrest x hx
      · intro x hx
        rcases hnew x hx with hold | ⟨t, ht, hfile⟩
        · rcases List.mem_cons.mp hold with rfl | hold
          · exact .inr ⟨_, List.mem_cons_self .., rfl⟩
          · exact .inl hold
        · exact .inr ⟨t, List.mem_cons_of_mem _ ht, hfile⟩

/-- Each new trail visits one of the files that were left. -/
theorem length_of_scan {trail : Trail} {nexts visited visited' : List FileId}
    {trails : List Trail} (hnexts : nexts ⊆ remaining)
    (h : scan seed trail nexts visited = some (trails, visited')) :
    trails.length + (leftOver remaining visited').length ≤ (leftOver remaining visited).length := by
  induction nexts generalizing visited trails visited' with
  | nil =>
    cases h
    simp
  | cons next rest ih =>
    obtain ⟨hnext, hrest⟩ := List.cons_subset.mp hnexts
    unfold scan at h
    split_ifs at h with hseed hvisited
    · exact ih hrest h
    · obtain ⟨⟨more, last⟩, hscan, heq⟩ := Option.map_eq_some_iff.mp h
      cases heq
      have hmore := ih hrest hscan
      have hfilter : leftOver remaining (next :: visited) =
          (leftOver remaining visited).filter (· ≠ next) := by
        simp only [leftOver, List.filter_filter, List.mem_cons, not_or, Bool.decide_and, ne_eq]
      have hfewer : (leftOver remaining (next :: visited)).length <
          (leftOver remaining visited).length := by
        rw [hfilter]
        refine List.length_filter_lt_length_iff_exists.mpr ⟨next, ?_, by simp⟩
        simpa [leftOver] using ⟨hnext, hvisited⟩
      simp only [List.length_cons]
      omega

/-! ## The search -/

/-- The number of steps of a trail. -/
def Trail.depth (t : Trail) : Nat := t.back.length

/-- All edges from a file were seen, and none leads to the seed. -/
def Exhausted (edges : FileId → List FileId) (seed : FileId) (visited : List FileId)
    (file : FileId) : Prop :=
  ∀ next ∈ edges file, next ≠ seed ∧ next ∈ visited

/-- What holds between two steps of the search. The trails wait in the order of their depths, which
differ by one at most, and each is a shortest way to its file. -/
structure ByDistance (edges : FileId → List FileId) (seed : FileId) (queue : List Trail)
    (visited : List FileId) : Prop where
  seed_visited : seed ∈ visited
  ordered : queue.Pairwise fun t u => t.depth ≤ u.depth ∧ u.depth ≤ t.depth + 1
  waiting : ∀ file ∈ visited, (∃ t ∈ queue, t.file = file) ∨ Exhausted edges seed visited file
  shortest : ∀ t ∈ queue, ∀ n, Way (fun file d => d ∈ edges file) seed n t.file → t.depth ≤ n

namespace ByDistance

variable {queue : List Trail} {visited : List FileId} {trail : Trail}

theorem start (edges : FileId → List FileId) (seed : FileId) :
    ByDistance edges seed [⟨seed, []⟩] [seed] where
  seed_visited := List.mem_singleton_self seed
  ordered := List.pairwise_singleton ..
  waiting file hfile := .inl ⟨_, List.mem_singleton_self _, (List.mem_singleton.mp hfile).symm⟩
  shortest t ht n _ := by
    rw [List.mem_singleton.mp ht]
    exact Nat.zero_le n

/-- A way from the seed leaves what is exhausted through a file whose trail waits, and that is no
deeper than the way is long. -/
theorem exists_waiting (h : ByDistance edges seed queue visited) {n : Nat} {file : FileId}
    (hway : Way (fun file d => d ∈ edges file) seed n file) :
    (file ∈ visited ∧ Exhausted edges seed visited file) ∨ ∃ t ∈ queue, t.depth ≤ n := by
  induction hway with
  | start =>
    rcases h.waiting seed h.seed_visited with ⟨t, ht, hfile⟩ | hexhausted
    · exact .inr ⟨t, ht, h.shortest t ht 0 (hfile ▸ .start)⟩
    · exact .inl ⟨h.seed_visited, hexhausted⟩
  | @step n file d way edge ih =>
    rcases ih with ⟨-, hexhausted⟩ | ⟨t, ht, hdepth⟩
    · have hvisited : d ∈ visited := (hexhausted d edge).2
      rcases h.waiting d hvisited with ⟨t, ht, hfile⟩ | hdone
      · exact .inr ⟨t, ht, h.shortest t ht (n + 1) (hfile ▸ way.step edge)⟩
      · exact .inl ⟨hvisited, hdone⟩
    · exact .inr ⟨t, ht, hdepth.trans (Nat.le_succ n)⟩

theorem depth_le (h : ByDistance edges seed (trail :: queue) visited) {t : Trail}
    (ht : t ∈ trail :: queue) : trail.depth ≤ t.depth := by
  rcases List.mem_cons.mp ht with rfl | ht
  · exact le_rfl
  · exact ((List.pairwise_cons.mp h.ordered).1 t ht).1

/-- Ways that leave what is exhausted are at least as long as the next trail. -/
theorem depth_le_of_way (h : ByDistance edges seed (trail :: queue) visited) {n : Nat}
    {file : FileId} (hway : Way (fun file d => d ∈ edges file) seed n file)
    (hfile : ¬ Exhausted edges seed visited file) : trail.depth ≤ n := by
  rcases h.exists_waiting hway with ⟨-, hexhausted⟩ | ⟨t, ht, hdepth⟩
  · exact absurd hexhausted hfile
  · exact (h.depth_le ht).trans hdepth

theorem scan (h : ByDistance edges seed (trail :: queue) visited) {trails : List Trail}
    {visited' : List FileId}
    (hscan : scan seed trail (edges trail.file) visited = some (trails, visited')) :
    ByDistance edges seed (queue ++ trails) visited' := by
  obtain ⟨hsubset, hvisited⟩ := visited_of_scan hscan
  obtain ⟨hexhausted, hnew⟩ := scan_visits hscan
  obtain ⟨hnear, hordered⟩ := List.pairwise_cons.mp h.ordered
  have hdepth (t : Trail) (ht : t ∈ trails) : t.depth = trail.depth + 1 := by
    rw [Trail.depth, (of_mem_scan hscan t ht).2]
    rfl
  refine ⟨hsubset h.seed_visited, ?_, fun file hfile => ?_, fun t ht n hway => ?_⟩
  · refine List.pairwise_append.mpr ⟨hordered, ?_, fun t ht u hu => ?_⟩
    · refine List.pairwise_iff_forall_sublist.mpr fun {t u} hsub => ?_
      rw [hdepth t (hsub.subset (by simp)), hdepth u (hsub.subset (by simp))]
      omega
    · have := hnear t ht
      rw [hdepth u hu]
      omega
  · rcases hnew file hfile with hold | ⟨t, ht, hfile⟩
    · rcases h.waiting file hold with ⟨t, ht, rfl⟩ | hdone
      · rcases List.mem_cons.mp ht with rfl | ht
        · exact .inr hexhausted
        · exact .inl ⟨t, List.mem_append_left _ ht, rfl⟩
      · exact .inr fun next hnext => ⟨(hdone next hnext).1, hsubset (hdone next hnext).2⟩
    · exact .inl ⟨t, List.mem_append_right _ ht, hfile⟩
  · rcases List.mem_append.mp ht with ht | ht
    · exact h.shortest t (List.mem_cons_of_mem _ ht) n hway
    · -- A shorter way would have met the file before.
      have hunvisited := (hvisited t ht).1
      rw [hdepth t ht]
      cases hway with
      | start => exact absurd h.seed_visited hunvisited
      | @step m file _ way edge =>
        have := h.depth_le_of_way way fun hdone => hunvisited (hdone _ edge).2
        omega

/-- The search finds a way back to the seed if there is one, and none is shorter. -/
theorem search (h : ByDistance edges seed queue visited)
    (hedges : ∀ file, edges file ⊆ remaining) {bound : Nat}
    (hbound : queue.length + (leftOver remaining visited).length ≤ bound) {n : Nat} {last : FileId}
    (hway : Way (fun file d => d ∈ edges file) seed n last) (hlast : seed ∈ edges last) :
    ∃ cycle, search edges seed bound queue visited = some cycle ∧ cycle.length ≤ n + 1 := by
  have hopen {seen : List FileId} : ¬ Exhausted edges seed seen last :=
    fun hdone => (hdone seed hlast).1 rfl
  induction bound generalizing queue visited with
  | zero =>
    rcases h.exists_waiting hway with ⟨-, hdone⟩ | ⟨t, ht, -⟩
    · exact absurd hdone hopen
    · have := List.length_pos_of_mem ht
      omega
  | succ bound ih =>
    rcases queue with _ | ⟨trail, queue⟩
    · rcases h.exists_waiting hway with ⟨-, hdone⟩ | ⟨t, ht, -⟩
      · exact absurd hdone hopen
      · cases ht
    · unfold Order.search
      split
      next hscan =>
        refine ⟨_, rfl, ?_⟩
        have := h.depth_le_of_way hway hopen
        simpa [Trail.toList, Trail.depth] using this
      next trails visited' hscan =>
        have hfewer := length_of_scan (hedges trail.file) hscan
        apply ih (h.scan hscan)
        simp only [List.length_append, List.length_cons] at hbound ⊢
        omega

end ByDistance

/-! ## Cycles through one file -/

theorem shortestCycleThrough?_of_way {n : Nat} {last : FileId}
    (hway : Way (DependsOn dependencies remaining) seed n last)
    (hlast : DependsOn dependencies remaining last seed) :
    ∃ cycle, shortestCycleThrough? dependencies remaining seed = some cycle ∧
      cycle.length ≤ n + 1 := by
  have hedges : DependsOn dependencies remaining =
      fun file d => d ∈ successors dependencies remaining file := by
    funext file d
    rw [mem_successors_iff]
  rw [hedges] at hway hlast
  refine (ByDistance.start _ seed).search (fun _ _ => mem_successors) ?_ hway hlast
  have := List.length_filter_le (· ∉ [seed]) remaining
  rw [leftOver, List.length_singleton]
  omega

/-- A file that is on no cycle is told from the others. -/
theorem shortestCycleThrough?_eq_none_iff :
    shortestCycleThrough? dependencies remaining seed = none ↔
      ¬ OnCycle dependencies remaining seed := by
  constructor
  · intro hnone hcycle
    obtain ⟨n, last, hway, hlast⟩ := exists_way_of_transGen hcycle
    obtain ⟨cycle, hsome, -⟩ := shortestCycleThrough?_of_way hway hlast
    exact Option.some_ne_none cycle (hsome.symm.trans hnone)
  · intro hcycle
    by_contra hne
    obtain ⟨cycle, hsome⟩ := Option.ne_none_iff_exists'.mp hne
    obtain ⟨his, hmem⟩ := shortestCycleThrough?_isCycle hsome
    exact hcycle (his.returns hmem)

theorem shortestCycleThrough?_of_isCycle {files : List FileId}
    (h : IsCycle (DependsOn dependencies remaining) files) (hseed : seed ∈ files) :
    ∃ cycle, shortestCycleThrough? dependencies remaining seed = some cycle ∧
      cycle.length ≤ files.length := by
  obtain ⟨n, last, hway, hlast, hlength⟩ := h.exists_way hseed
  rw [hlength]
  exact shortestCycleThrough?_of_way hway hlast

/-! ## The best of several cycles -/

section Best

variable {cycleThrough? : FileId → Option (List FileId)} {seeds : List FileId}
  {best : Option (List FileId)} {cycle : List FileId}

/-- A cycle through the next seed is taken if it is shorter than the best one so far. -/
theorem bestCycle?_cons {s : FileId} (h : cycleThrough? s = some cycle) :
    ∃ shorter : List FileId, bestCycle? cycleThrough? (s :: seeds) best =
        (if shorter.length ≤ 2 then some shorter
          else bestCycle? cycleThrough? seeds (some shorter)) ∧
      shorter.length ≤ cycle.length ∧ ∀ b, best = some b → shorter.length ≤ b.length := by
  rw [bestCycle?, h]
  rcases best with _ | b
  · refine ⟨cycle, rfl, le_rfl, fun b hb => ?_⟩
    cases hb
  · refine ⟨if cycle.length < b.length then cycle else b, rfl, ?_, ?_⟩
    · split_ifs <;> omega
    · intro _ hb
      cases hb
      split_ifs <;> omega

/-- Where cycles have two files at least, one of two files makes it needless to try more. -/
theorem bestCycle?_le (htwo : ∀ s cycle, cycleThrough? s = some cycle → 2 ≤ cycle.length)
    (h : best = some cycle ∨ ∃ s ∈ seeds, cycleThrough? s = some cycle) :
    ∃ found, bestCycle? cycleThrough? seeds best = some found ∧
      found.length ≤ cycle.length := by
  induction seeds generalizing best cycle with
  | nil =>
    rcases h with rfl | ⟨s, hs, -⟩
    · exact ⟨cycle, rfl, le_rfl⟩
    · cases hs
  | cons s seeds ih =>
    cases hs : cycleThrough? s with
    | none =>
      rw [bestCycle?, hs]
      apply ih
      rcases h with rfl | ⟨s', hs', hcycle⟩
      · exact .inl rfl
      · rcases List.mem_cons.mp hs' with rfl | hs'
        · exact absurd (hs.symm.trans hcycle) (Option.some_ne_none cycle).symm
        · exact .inr ⟨s', hs', hcycle⟩
    | some c =>
      obtain ⟨shorter, heq, hc, hbest⟩ := @bestCycle?_cons _ seeds best c s hs
      -- What is kept is no longer than what was compared; the rest is tried later or needless.
      have hcases : shorter.length ≤ cycle.length ∨
          2 ≤ cycle.length ∧ ∃ s' ∈ seeds, cycleThrough? s' = some cycle := by
        rcases h with hb | ⟨s', hs', hcycle⟩
        · exact .inl (hbest cycle hb)
        · rcases List.mem_cons.mp hs' with rfl | hs'
          · obtain rfl : c = cycle := Option.some_injective _ (hs.symm.trans hcycle)
            exact .inl hc
          · exact .inr ⟨htwo s' cycle hcycle, s', hs', hcycle⟩
      rw [heq]
      split_ifs with hshort
      · refine ⟨shorter, rfl, ?_⟩
        rcases hcases with hle | ⟨htwo, -⟩ <;> omega
      · rcases hcases with hle | ⟨-, hlater⟩
        · obtain ⟨found, hfound, hle'⟩ := @ih (some shorter) shorter (.inl rfl)
          exact ⟨found, hfound, hle'.trans hle⟩
        · exact ih (.inr hlater)

end Best

/-! ## The cycle that is broken -/

/-- A cycle has none but the remaining files. -/
theorem IsCycle.subset {files : List FileId}
    (h : IsCycle (DependsOn dependencies remaining) files) : files ⊆ remaining := by
  intro file hfile
  obtain ⟨n, last, -, hlast, -⟩ := h.exists_way hfile
  exact hlast.2.2

theorem exists_isCycle_of_onCycle (h : OnCycle dependencies remaining seed) :
    ∃ files, IsCycle (DependsOn dependencies remaining) files ∧ seed ∈ files := by
  have hsome : shortestCycleThrough? dependencies remaining seed ≠ none := by
    rw [Ne, shortestCycleThrough?_eq_none_iff, not_not]
    exact h
  obtain ⟨files, hfiles⟩ := Option.ne_none_iff_exists'.mp hsome
  exact ⟨files, shortestCycleThrough?_isCycle hfiles⟩

/-- A cycle through one of the first files makes the one that is found go through one of them, and
be no longer. -/
theorem smallestCycle_le {probeLimit : Nat} {files : List FileId}
    (h : IsCycle (DependsOn dependencies remaining) files)
    (hseed : seed ∈ remaining.take (max probeLimit 1)) (hmem : seed ∈ files) :
    (∃ s ∈ remaining.take (max probeLimit 1),
        s ∈ smallestCycle dependencies probeLimit remaining) ∧
      (smallestCycle dependencies probeLimit remaining).length ≤ files.length := by
  obtain ⟨cycle, hcycle, hle⟩ := shortestCycleThrough?_of_isCycle h hmem
  obtain ⟨found, hfound, hle'⟩ := @bestCycle?_le (shortestCycleThrough? dependencies remaining)
    (remaining.take (max probeLimit 1)) none cycle
    (fun _ _ hc => (shortestCycleThrough?_isCycle hc).1.two_le) (.inr ⟨seed, hseed, hcycle⟩)
  have heq : smallestCycle dependencies probeLimit remaining = found := by
    simp only [smallestCycle, hfound]
  rw [heq]
  refine ⟨?_, hle'.trans hle⟩
  rcases of_bestCycle? hfound with hnone | ⟨s, hs, hthrough⟩
  · cases hnone
  · exact ⟨s, hs, (shortestCycleThrough?_isCycle hthrough).2⟩

/-- What is found among blocked files is a simple cycle. If one of the files that are tried is on a
cycle, it goes through one of them, and no cycle through any of them is shorter; if all files are
tried, no cycle is shorter at all. A file is on no cycle if and only if the search through it finds
none. -/
theorem smallestCycle_shortest (hne : remaining ≠ [])
    (hblocked : ∀ file ∈ remaining, ∃ d, DependsOn dependencies remaining file d)
    (probeLimit : Nat) :
    let seeds := remaining.take (max probeLimit 1)
    let cycle := smallestCycle dependencies probeLimit remaining
    IsCycle (DependsOn dependencies remaining) cycle ∧
    ((∃ seed ∈ seeds, OnCycle dependencies remaining seed) →
      (∃ seed ∈ seeds, seed ∈ cycle) ∧
      ∀ other, IsCycle (DependsOn dependencies remaining) other → (∃ seed ∈ seeds, seed ∈ other) →
        cycle.length ≤ other.length) ∧
    (remaining.length ≤ probeLimit →
      ∀ other, IsCycle (DependsOn dependencies remaining) other → cycle.length ≤ other.length) ∧
    ∀ seed, shortestCycleThrough? dependencies remaining seed = none ↔
      ¬ OnCycle dependencies remaining seed := by
  intro seeds cycle
  have hfrontier : frontier dependencies remaining = [] := by
    refine List.eq_nil_iff_forall_not_mem.mpr fun file hfile => ?_
    obtain ⟨hmem, hfree⟩ := mem_frontier_iff.mp hfile
    obtain ⟨d, hd⟩ := hblocked file hmem
    exact hfree d hd
  refine ⟨smallestCycle_isCycle probeLimit hfrontier hne, ?_, ?_,
    fun _ => shortestCycleThrough?_eq_none_iff⟩
  · rintro ⟨seed, hseed, hcycle⟩
    obtain ⟨files, hfiles, hmem⟩ := exists_isCycle_of_onCycle hcycle
    refine ⟨(smallestCycle_le hfiles hseed hmem).1, ?_⟩
    rintro other hother ⟨s, hs, hmem⟩
    exact (smallestCycle_le hother hs hmem).2
  · intro hall other hother
    obtain ⟨s, hs⟩ := List.exists_mem_of_ne_nil _ hother.ne_nil
    have hseeds : remaining.take (max probeLimit 1) = remaining :=
      List.take_of_length_le (hall.trans (Nat.le_max_left ..))
    have hmem : s ∈ remaining.take (max probeLimit 1) := by
      rw [hseeds]
      exact hother.subset hs
    exact (smallestCycle_le hother hmem hs).2

/-- A round of four files with a way back from the last to the third. -/
theorem smallestCycle_of_chord :
    let dependencies : FileId → List FileId := fun file => [[1], [2], [3], [0, 2]].getD file []
    let remaining : List FileId := [0, 1, 2, 3]
    (remaining ≠ [] ∧ ∀ file ∈ remaining, ∃ d, DependsOn dependencies remaining file d) ∧
      smallestCycle dependencies 16 remaining = [2, 3] ∧
      IsCycle (DependsOn dependencies remaining) [2, 3] ∧
      ∀ other, IsCycle (DependsOn dependencies remaining) other → 2 ≤ other.length := by
  intro dependencies remaining
  have hne : remaining ≠ [] := by decide
  have hblocked : ∀ file ∈ remaining, ∃ d, DependsOn dependencies remaining file d := by
    intro file hfile
    refine ⟨(dependencies file).headD 0, ?_⟩
    unfold DependsOn
    revert file
    decide
  have hcycle : smallestCycle dependencies 16 remaining = [2, 3] := by decide
  obtain ⟨his, -, hshortest, -⟩ := smallestCycle_shortest hne hblocked 16
  rw [hcycle] at his hshortest
  exact ⟨⟨hne, hblocked⟩, hcycle, his, hshortest (by decide)⟩

end Rebuild.Build.Order
