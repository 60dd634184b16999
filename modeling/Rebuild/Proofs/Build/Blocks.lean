import Mathlib
import Rebuild.Proofs.Build.Cycles

/-! The blocks in which files are given out. Main statements: whatever the dependencies are, there
is an order with each of the given files once; it falls into blocks, each a frontier or a broken
cycle, so that only files on a cycle come before one that they depend on. -/
namespace Rebuild.Build.Order

variable {dependencies : FileId → List FileId} {remaining nodes : List FileId} {probeLimit : Nat}

/-! ## Single blocks -/

theorem nextBlock_sublist : (nextBlock dependencies probeLimit remaining).Sublist remaining := by
  unfold nextBlock
  split
  next => exact List.filter_sublist
  next => exact List.filter_sublist

theorem mem_frontier_iff {file : FileId} : file ∈ frontier dependencies remaining ↔
    file ∈ remaining ∧ ∀ d, ¬ DependsOn dependencies remaining file d := by
  rw [frontier, List.mem_filter, decide_eq_true_eq, List.eq_nil_iff_forall_not_mem]
  simp only [mem_successors_iff]

/-- A cycle is broken only when there is no frontier. -/
theorem nextBlock_cases (hnodup : remaining.Nodup) (hne : remaining ≠ []) :
    (∀ file, file ∈ nextBlock dependencies probeLimit remaining ↔
        file ∈ remaining ∧ ∀ d, ¬ DependsOn dependencies remaining file d) ∨
      (∀ file ∈ remaining, ∃ d, DependsOn dependencies remaining file d) ∧
        ∃ cycle, IsCycle (DependsOn dependencies remaining) cycle ∧
          (nextBlock dependencies probeLimit remaining).Perm cycle := by
  unfold nextBlock
  split
  next hfrontier =>
    right
    constructor
    · intro file hfile
      obtain ⟨d, hd⟩ := List.exists_mem_of_ne_nil _ (successors_ne_nil hfrontier hfile)
      exact ⟨d, mem_successors_iff.mp hd⟩
    · have hcycle := smallestCycle_isCycle probeLimit hfrontier hne
      have hwithin := (smallestCycle_within probeLimit hfrontier hne).2
      refine ⟨_, hcycle, ?_⟩
      rw [List.perm_ext_iff_of_nodup (hnodup.filter _) hcycle.nodup]
      intro file
      rw [List.mem_filter, decide_eq_true_eq]
      exact ⟨And.right, fun hmem => ⟨hwithin hmem, hmem⟩⟩
  next => exact .inl fun file => mem_frontier_iff

/-! ## Rounds -/

/-- One round gives out the next block; the others come from the files that are left. -/
theorem of_blocks_cons {n : Nat} {block : List FileId} {after : List (List FileId)}
    (h : blocks dependencies probeLimit n remaining = .ok (block :: after)) :
    remaining ≠ [] ∧ block = nextBlock dependencies probeLimit remaining ∧
      ∃ m, blocks dependencies probeLimit m (remaining.filter (· ∉ block)) = .ok after := by
  unfold blocks at h
  split at h
  next => cases h
  next => cases h
  next m hne =>
    split at h
    next => cases h
    next hblock =>
      cases hafter : blocks dependencies probeLimit m
          (remaining.filter (· ∉ nextBlock dependencies probeLimit remaining)) with
      | error e =>
        rw [hafter] at h
        cases h
      | ok found =>
        rw [hafter] at h
        cases h
        exact ⟨hne, rfl, m, hafter⟩

/-- Each block is the next one for what the blocks in front of it leave. -/
theorem block_of_blocks {n : Nat} {before : List (List FileId)} {block : List FileId}
    {after : List (List FileId)}
    (h : blocks dependencies probeLimit n remaining = .ok (before ++ block :: after)) :
    remaining.filter (· ∉ before.flatten) ≠ [] ∧
      block = nextBlock dependencies probeLimit (remaining.filter (· ∉ before.flatten)) := by
  induction before generalizing n remaining with
  | nil =>
    obtain ⟨hne, hblock, -⟩ := of_blocks_cons h
    simpa using And.intro hne hblock
  | cons first before ih =>
    obtain ⟨-, -, m, hrest⟩ := of_blocks_cons h
    have hfilter : (remaining.filter (· ∉ first)).filter (· ∉ before.flatten) =
        remaining.filter (· ∉ (first :: before).flatten) := by
      rw [List.filter_filter]
      apply List.filter_congr
      intro file _
      simp only [List.flatten_cons, List.mem_append, not_or, Bool.decide_and, Bool.and_comm]
    rw [← hfilter]
    exact ih hrest

theorem nodup_of_blocks {n : Nat} {found : List (List FileId)} (hnodup : remaining.Nodup)
    (h : blocks dependencies probeLimit n remaining = .ok found) :
    found.flatten.Nodup ∧ found.flatten ⊆ remaining := by
  induction found generalizing n remaining with
  | nil => simp
  | cons block after ih =>
    obtain ⟨-, hblock, m, hrest⟩ := of_blocks_cons h
    obtain ⟨hafter, hsubset⟩ := ih (hnodup.filter _) hrest
    have hsublist : block.Sublist remaining := hblock ▸ nextBlock_sublist
    rw [List.flatten_cons]
    constructor
    · apply List.Nodup.append (hnodup.sublist hsublist) hafter
      intro file hfile hlater
      exact of_decide_eq_true (List.mem_filter.mp (hsubset hlater)).2 hfile
    · intro file hfile
      rcases List.mem_append.mp hfile with hfile | hfile
      · exact hsublist.subset hfile
      · exact (List.mem_filter.mp (hsubset hfile)).1

theorem nodup_eraseDups (files : List FileId) : files.eraseDups.Nodup := by
  cases files with
  | nil => simp
  | cons file rest =>
    rw [List.eraseDups_cons, List.nodup_cons]
    constructor
    · rw [List.mem_eraseDups]
      simp
    · exact nodup_eraseDups _
termination_by files.length
decreasing_by
  have hle := List.length_filter_le (fun other => !other == file) rest
  rw [List.length_cons]
  omega

/-! ## The order -/

/-- There always is an order, and each of the given files comes in it once. -/
theorem topological_total (nodes : List FileId) (dependencies : FileId → List FileId)
    (probeLimit : Nat) :
    ∃ order, topological nodes dependencies probeLimit = .ok order ∧ order.Nodup ∧
      ∀ file, file ∈ order ↔ file ∈ nodes := by
  obtain ⟨found, hfound, horder, hmem⟩ := exists_blocks nodes dependencies probeLimit
  exact ⟨found.flatten, horder, (nodup_of_blocks (nodup_eraseDups nodes) hfound).1, hmem⟩

/-- The given files that no earlier block has. -/
def leftOver (nodes earlier : List FileId) : List FileId := nodes.filter (· ∉ earlier)

/-- A block of all files whose dependencies are in earlier blocks. -/
structure IsFrontier (dependencies : FileId → List FileId) (nodes earlier block : List FileId) :
    Prop where
  ne_nil : block ≠ []
  mem_iff : ∀ file, file ∈ block ↔ file ∈ leftOver nodes earlier ∧
    ∀ d, DependsOn dependencies nodes file d → d ∈ earlier

/-- A block of the files of one simple cycle, when all files that are left wait for others that
are left. -/
structure IsBrokenCycle (dependencies : FileId → List FileId)
    (nodes earlier block : List FileId) : Prop where
  blocked : ∀ file ∈ leftOver nodes earlier,
    ∃ d, DependsOn dependencies (leftOver nodes earlier) file d
  cycle : ∃ files, IsCycle (DependsOn dependencies (leftOver nodes earlier)) files ∧
    block.Perm files

/-- Does some way along the dependencies between the given files lead from a file back to it? -/
def OnCycle (dependencies : FileId → List FileId) (nodes : List FileId) (file : FileId) : Prop :=
  Relation.TransGen (DependsOn dependencies nodes) file file

theorem dependsOn_leftOver {earlier : List FileId} {file d : FileId} :
    DependsOn dependencies (leftOver nodes earlier) file d ↔
      DependsOn dependencies nodes file d ∧ d ∉ earlier := by
  simp [DependsOn, leftOver, and_assoc]

/-- Repeated files make no difference to what depends on what. -/
theorem dependsOn_congr {files files' : List FileId} (h : ∀ file, file ∈ files ↔ file ∈ files') :
    DependsOn dependencies files = DependsOn dependencies files' := by
  funext file d
  simp only [DependsOn, h]

theorem IsBrokenCycle.onCycle {earlier block : List FileId}
    (h : IsBrokenCycle dependencies nodes earlier block) {file : FileId} (hfile : file ∈ block) :
    OnCycle dependencies nodes file := by
  obtain ⟨files, hcycle, hperm⟩ := h.cycle
  have hle : DependsOn dependencies (leftOver nodes earlier) ≤ DependsOn dependencies nodes :=
    fun _ _ hd => (dependsOn_leftOver.mp hd).1
  exact Relation.TransGen.mono hle _ _ (hcycle.returns (hperm.subset hfile))

/-- The kinds of blocks, told of the given files. -/
theorem frontier_or_cycle_of_blocks {n : Nat} {before : List (List FileId)} {block : List FileId}
    {after : List (List FileId)} (h : blocks dependencies probeLimit n nodes.eraseDups =
      .ok (before ++ block :: after)) :
    IsFrontier dependencies nodes before.flatten block ∨
      IsBrokenCycle dependencies nodes before.flatten block := by
  obtain ⟨hne, hblock⟩ := block_of_blocks h
  have hnonempty : block ≠ [] := hblock ▸ (nextBlock_within probeLimit hne).1
  have hmem (file : FileId) : file ∈ nodes.eraseDups.filter (· ∉ before.flatten) ↔
      file ∈ leftOver nodes before.flatten := by
    simp [leftOver]
  have hnodup : (nodes.eraseDups.filter (· ∉ before.flatten)).Nodup :=
    (nodup_eraseDups nodes).filter _
  have hcases := @nextBlock_cases dependencies _ probeLimit hnodup hne
  rw [← hblock, dependsOn_congr hmem] at hcases
  simp only [hmem] at hcases
  rcases hcases with hfrontier | ⟨hblocked, hcycle⟩
  · left
    refine ⟨hnonempty, fun file => ?_⟩
    rw [hfrontier]
    simp only [dependsOn_leftOver, not_and_not_right]
  · exact .inr ⟨hblocked, hcycle⟩

/-- A file of the order stands in a block, behind all files of the blocks in front of it. -/
theorem exists_block_of_flatten {found : List (List FileId)} {before after : List FileId}
    {file : FileId} (h : found.flatten = before ++ file :: after) :
    ∃ earlier block later, found = earlier ++ block :: later ∧ file ∈ block ∧
      earlier.flatten ⊆ before := by
  rcases List.flatten_eq_append_iff.mp h with
    ⟨first, rest, rfl, rfl, hrest⟩ | ⟨earlier, head, file', tail, later, rfl, rfl, hrest⟩
  · obtain ⟨empty, tail, later, rfl, hempty, -⟩ := List.flatten_eq_cons_iff.mp hrest.symm
    refine ⟨first ++ empty, file :: tail, later, by simp, List.mem_cons_self .., ?_⟩
    rw [List.flatten_append, List.flatten_eq_nil_iff.mpr hempty, List.append_nil]
    exact List.Subset.refl _
  · obtain rfl : file = file' := by
      have hhead := congrArg List.head? hrest
      simpa using hhead
    exact ⟨earlier, head ++ file :: tail, later, rfl, by simp, List.subset_append_left _ _⟩

/-- The order falls into blocks. A file that is on no cycle comes after all files that it depends
on, whatever cycles there are elsewhere. -/
theorem topological_blocks (nodes : List FileId) (dependencies : FileId → List FileId)
    (probeLimit : Nat) :
    ∃ found : List (List FileId),
      topological nodes dependencies probeLimit = .ok found.flatten ∧
      (∀ file, file ∈ found.flatten ↔ file ∈ nodes) ∧
      (∀ before block after, found = before ++ block :: after →
        IsFrontier dependencies nodes before.flatten block ∨
          IsBrokenCycle dependencies nodes before.flatten block) ∧
      ∀ before file after, found.flatten = before ++ file :: after →
        ¬ OnCycle dependencies nodes file →
          ∀ d, DependsOn dependencies nodes file d → d ∈ before := by
  obtain ⟨found, hfound, horder, hmem⟩ := exists_blocks nodes dependencies probeLimit
  have hkind (before : List (List FileId)) (block : List FileId) (after : List (List FileId))
      (hsplit : found = before ++ block :: after) :
      IsFrontier dependencies nodes before.flatten block ∨
        IsBrokenCycle dependencies nodes before.flatten block :=
    frontier_or_cycle_of_blocks (hsplit ▸ hfound)
  refine ⟨found, horder, hmem, hkind, ?_⟩
  intro before file after hflatten hfile d hd
  obtain ⟨earlier, block, later, hsplit, hblock, hearlier⟩ := exists_block_of_flatten hflatten
  rcases hkind earlier block later hsplit with hfrontier | hcycle
  · exact hearlier (((hfrontier.mem_iff file).mp hblock).2 d hd)
  · exact absurd (hcycle.onCycle hblock) hfile

end Rebuild.Build.Order
