import Mathlib
import Rebuild.Proofs.Build.Order

/-! The cycles that the order breaks. Main statement: when all remaining files are blocked, what is
found among them is a simple directed cycle, whichever of the two searches found it. -/
namespace Rebuild.Build.Order

/-- A file depends on another one of some files. -/
def DependsOn (dependencies : FileId → List FileId) (files : List FileId) (file d : FileId) :
    Prop :=
  d ∈ dependencies file ∧ d ≠ file ∧ d ∈ files

/-- Files without repetition, each leading to the next one, and the last one to the first. -/
structure IsCycle (leadsTo : FileId → FileId → Prop) (files : List FileId) : Prop where
  ne_nil : files ≠ []
  nodup : files.Nodup
  chain : Cycle.Chain leadsTo (files : Cycle FileId)

variable {dependencies : FileId → List FileId} {remaining : List FileId}
  {edges : FileId → List FileId} {seed : FileId}

theorem mem_successors_iff {file d : FileId} :
    d ∈ successors dependencies remaining file ↔ DependsOn dependencies remaining file d := by
  simp [successors, DependsOn]

/-- From each file of a cycle the way leads back to it. -/
theorem IsCycle.returns {leadsTo : FileId → FileId → Prop} {files : List FileId}
    (h : IsCycle leadsTo files) {file : FileId} (hfile : file ∈ files) :
    Relation.TransGen leadsTo file file := by
  have hchain : Cycle.Chain (Relation.TransGen leadsTo) (files : Cycle FileId) :=
    h.chain.imp fun _ _ => Relation.TransGen.single
  have hmem : file ∈ (files : Cycle FileId) := Cycle.mem_coe_iff.mpr hfile
  exact Cycle.chain_iff_pairwise.mp hchain file hmem file hmem

/-! ## Ways -/

/-- A way of some number of steps from one file to another. -/
inductive Way (leadsTo : FileId → FileId → Prop) (start : FileId) : Nat → FileId → Prop where
  | start : Way leadsTo start 0 start
  | step {n : Nat} {file d : FileId} (way : Way leadsTo start n file) (edge : leadsTo file d) :
      Way leadsTo start (n + 1) d

namespace Way

variable {leadsTo : FileId → FileId → Prop} {n : Nat} {a b d : FileId}

/-- A way can be begun one step earlier. -/
theorem cons (edge : leadsTo a b) (way : Way leadsTo b n d) : Way leadsTo a (n + 1) d := by
  induction way with
  | start => exact Way.start.step edge
  | step _ hlast ih => exact ih.step hlast

theorem exists_of_succ (way : Way leadsTo a (n + 1) d) :
    ∃ b, leadsTo a b ∧ Way leadsTo b n d := by
  induction n generalizing d with
  | zero =>
    obtain _ | ⟨way, hlast⟩ := way
    cases way
    exact ⟨d, hlast, .start⟩
  | succ n ih =>
    obtain _ | ⟨way, hlast⟩ := way
    obtain ⟨b, hfirst, hrest⟩ := ih way
    exact ⟨b, hfirst, hrest.step hlast⟩

end Way

/-! ## Trails -/

namespace Trail

/-- A trail goes along the edges and meets no file twice. -/
structure Simple (edges : FileId → List FileId) (t : Trail) : Prop where
  nodup : (t.file :: t.back).Nodup
  chain : (t.file :: t.back).IsChain fun next file => next ∈ edges file

theorem Simple.start (edges : FileId → List FileId) (file : FileId) :
    Simple edges ⟨file, []⟩ :=
  ⟨List.nodup_singleton file, List.isChain_singleton file⟩

variable {t : Trail}

theorem Simple.step (h : t.Simple edges) {next : FileId} (hedge : next ∈ edges t.file)
    (hnew : next ∉ t.file :: t.back) : Simple edges ⟨next, t.file :: t.back⟩ :=
  ⟨List.nodup_cons.mpr ⟨hnew, h.nodup⟩, List.isChain_cons_cons.mpr ⟨hedge, h.chain⟩⟩

/-- A trail closes as soon as an edge leads to a file that it met: what came since is a cycle. -/
theorem Simple.closes (h : t.Simple edges) {next : FileId} (hedge : next ∈ edges t.file)
    {since before : List FileId} (hsplit : t.file :: t.back = since ++ next :: before) :
    IsCycle (fun file d => d ∈ edges file) (next :: since.reverse) := by
  have hprefix : since ++ [next] <+: t.file :: t.back :=
    ⟨before, by rw [hsplit, List.append_assoc, List.singleton_append]⟩
  refine ⟨by simp, ?_, ?_⟩
  · have hnodup : (since ++ [next]).Nodup := h.nodup.sublist hprefix.sublist
    simpa using List.nodup_reverse.mpr hnodup
  · have hclosed : (next :: t.file :: t.back).IsChain fun d file => d ∈ edges file :=
      List.isChain_cons_cons.mpr ⟨hedge, h.chain⟩
    have hloop : (next :: (since ++ [next])).IsChain fun d file => d ∈ edges file :=
      hclosed.prefix ((List.prefix_cons_inj next).mpr hprefix)
    rw [Cycle.chain_coe_cons]
    apply List.isChain_reverse.mp
    simpa using hloop

end Trail

/-! ## Breadth-first search -/

theorem mem_of_scan_eq_none {trail : Trail} {nexts visited : List FileId}
    (h : scan seed trail nexts visited = none) : seed ∈ nexts := by
  induction nexts generalizing visited with
  | nil => cases h
  | cons next rest ih =>
    unfold scan at h
    split_ifs at h with hseed hvisited
    · exact hseed ▸ List.mem_cons_self ..
    · exact List.mem_cons_of_mem next (ih h)
    · exact List.mem_cons_of_mem next (ih (Option.map_eq_none_iff.mp h))

/-- The new trails end in files that were not visited before and are visited now. -/
theorem visited_of_scan {trail : Trail} {nexts visited visited' : List FileId}
    {trails : List Trail} (h : scan seed trail nexts visited = some (trails, visited')) :
    visited ⊆ visited' ∧ ∀ t ∈ trails, t.file ∉ visited ∧ t.file ∈ visited' := by
  induction nexts generalizing visited trails visited' with
  | nil =>
    cases h
    simp
  | cons next rest ih =>
    unfold scan at h
    split_ifs at h with hseed hvisited
    · exact ih h
    · obtain ⟨⟨more, last⟩, hrest, heq⟩ := Option.map_eq_some_iff.mp h
      cases heq
      obtain ⟨hsubset, hmore⟩ := ih hrest
      refine ⟨fun x hx => hsubset (List.mem_cons_of_mem next hx), ?_⟩
      intro t ht
      rcases List.mem_cons.mp ht with rfl | ht
      · exact ⟨hvisited, hsubset (List.mem_cons_self ..)⟩
      · obtain ⟨hnew, hlast⟩ := hmore t ht
        exact ⟨fun hold => hnew (List.mem_cons_of_mem next hold), hlast⟩

/-- A trail of the search: it starts at the seed and has met visited files only. -/
structure Searched (edges : FileId → List FileId) (seed : FileId) (visited : List FileId)
    (t : Trail) : Prop where
  simple : t.Simple edges
  starts : ∃ since, t.file :: t.back = since ++ [seed]
  visited : t.Within visited

theorem Searched.mono {visited visited' : List FileId} {t : Trail}
    (h : Searched edges seed visited t) (hsubset : visited ⊆ visited') :
    Searched edges seed visited' t :=
  ⟨h.simple, h.starts, fun x hx => hsubset (h.visited x hx)⟩

/-- Trails that a scan adds go one file further. -/
theorem Searched.scan {visited visited' : List FileId} {trail : Trail} {trails : List Trail}
    (h : Searched edges seed visited trail)
    (hscan : scan seed trail (edges trail.file) visited = some (trails, visited')) :
    ∀ t ∈ trails, Searched edges seed visited' t := by
  rintro ⟨next, back⟩ ht
  obtain ⟨hsubset, hvisited⟩ := visited_of_scan hscan
  obtain ⟨hnew, hnow⟩ := hvisited _ ht
  obtain ⟨hedge, rfl⟩ := of_mem_scan hscan _ ht
  obtain ⟨since, hsince⟩ := h.starts
  refine ⟨h.simple.step hedge fun hmet => hnew (h.visited next hmet), ⟨next :: since, ?_⟩, ?_⟩
  · simp [hsince]
  · intro x hx
    rcases List.mem_cons.mp hx with rfl | hx
    · exact hnow
    · exact hsubset (h.visited x hx)

theorem search_isCycle {n : Nat} {queue : List Trail} {visited cycle : List FileId}
    (hqueue : ∀ t ∈ queue, Searched edges seed visited t)
    (h : search edges seed n queue visited = some cycle) :
    IsCycle (fun file d => d ∈ edges file) cycle ∧ seed ∈ cycle := by
  induction n generalizing queue visited with
  | zero => cases h
  | succ n ih =>
    rcases queue with _ | ⟨trail, queue⟩
    · cases h
    · have htrail := hqueue trail (List.mem_cons_self ..)
      unfold search at h
      split at h
      next hscan =>
        cases h
        obtain ⟨since, hsince⟩ := htrail.starts
        have hback : trail.toList = seed :: since.reverse := by
          rw [Trail.toList, hsince, List.reverse_append]
          rfl
        rw [hback]
        exact ⟨htrail.simple.closes (mem_of_scan_eq_none hscan) hsince, List.mem_cons_self ..⟩
      next trails visited' hscan =>
        apply ih _ h
        intro t ht
        rcases List.mem_append.mp ht with ht | ht
        · have hold := hqueue t (List.mem_cons_of_mem trail ht)
          exact hold.mono (visited_of_scan hscan).1
        · exact htrail.scan hscan t ht

theorem shortestCycleThrough?_isCycle {cycle : List FileId}
    (h : shortestCycleThrough? dependencies remaining seed = some cycle) :
    IsCycle (DependsOn dependencies remaining) cycle ∧ seed ∈ cycle := by
  have hstart : ∀ t ∈ [(⟨seed, []⟩ : Trail)],
      Searched (successors dependencies remaining) seed [seed] t := by
    intro t ht
    obtain rfl := List.mem_singleton.mp ht
    exact ⟨Trail.Simple.start _ seed, ⟨[], rfl⟩, fun _ hx => hx⟩
  simpa only [mem_successors_iff] using search_isCycle hstart h

/-! ## The walk -/

/-- A walk that comes back has gone round a cycle. -/
theorem walk_isCycle {n : Nat} {trail : Trail} (htrail : trail.Simple edges)
    (hne : walk edges n trail ≠ []) :
    IsCycle (fun file d => d ∈ edges file) (walk edges n trail) := by
  induction n generalizing trail with
  | zero => exact absurd rfl hne
  | succ n ih =>
    unfold walk at hne ⊢
    split at hne
    next hnil => exact absurd rfl hne
    next next rest hcons =>
      have hedge : next ∈ edges trail.file := hcons ▸ List.mem_cons_self ..
      split_ifs at hne ⊢ with hmet
      · obtain ⟨since, before, hsplit, hsince⟩ := List.eq_append_cons_of_mem hmet
        -- What was met since the first visit stands in front of it, for the trail runs backwards.
        have htake : (trail.file :: trail.back).takeWhile (· ≠ next) = since := by
          have hall : ∀ x ∈ since, decide (x ≠ next) = true := by
            intro x hx
            exact decide_eq_true (fun heq => hsince (heq ▸ hx))
          rw [hsplit, List.takeWhile_append_of_pos hall]
          simp
        rw [htake]
        exact htrail.closes hedge hsplit
      · exact ih (htrail.step hedge hmet) hne

/-- When all remaining files are blocked, a simple cycle is found among them. -/
theorem smallestCycle_isCycle (probeLimit : Nat) (h : frontier dependencies remaining = [])
    (hne : remaining ≠ []) : IsCycle (DependsOn dependencies remaining)
      (smallestCycle dependencies probeLimit remaining) := by
  have hfound := (smallestCycle_within probeLimit h hne).1
  unfold smallestCycle at hfound ⊢
  simp only at hfound ⊢
  split at hfound
  next cycle hcycle =>
    rcases of_bestCycle? hcycle with hnone | ⟨seed, -, hthrough⟩
    · cases hnone
    · exact (shortestCycleThrough?_isCycle hthrough).1
  next hnone =>
    rcases remaining with _ | ⟨first, rest⟩
    · exact absurd rfl hne
    · simpa only [mem_successors_iff] using walk_isCycle (Trail.Simple.start _ first) hfound

end Rebuild.Build.Order
