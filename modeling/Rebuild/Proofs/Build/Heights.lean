import Mathlib
import Rebuild.Proofs.Build.Blocks

/-! The order without cycles. A file stands as high as the longest chain of dependencies from it is
long, and each round gives out the files of one height. Main statement: the order is the stable sort
of the given files by height, whatever the probe limit. -/
namespace Rebuild.Build.Order

variable {dependencies : FileId → List FileId} {nodes : List FileId} {probeLimit : Nat}

/-! ## Sorting by a key -/

section Keys

variable {key : FileId → Nat} {files files' : List FileId}

theorem mem_iff_of_filter_eq
    (h : ∀ k, files.filter (fun file => key file = k) = files'.filter fun file => key file = k)
    (file : FileId) : file ∈ files ↔ file ∈ files' := by
  have hmem := congrArg (file ∈ ·) (h (key file))
  simpa using hmem

theorem head_le_of_pairwise {file first : FileId} {rest : List FileId}
    (h : (first :: rest).Pairwise fun a b => key a ≤ key b) (hfile : file ∈ first :: rest) :
    key first ≤ key file := by
  rcases List.mem_cons.mp hfile with rfl | hrest
  · exact le_rfl
  · exact (List.pairwise_cons.mp h).1 file hrest

/-- A list that is sorted by a key is determined by what it has of each key, in order. -/
theorem eq_of_pairwise_of_filter_eq (hsorted : files.Pairwise fun a b => key a ≤ key b)
    (hsorted' : files'.Pairwise fun a b => key a ≤ key b)
    (h : ∀ k, files.filter (fun file => key file = k) = files'.filter fun file => key file = k) :
    files = files' := by
  induction files generalizing files' with
  | nil =>
    refine (List.eq_nil_iff_forall_not_mem.mpr fun file hfile => ?_).symm
    exact List.not_mem_nil ((mem_iff_of_filter_eq h file).mpr hfile)
  | cons a rest ih =>
    have ha := (mem_iff_of_filter_eq h a).mp (List.mem_cons_self ..)
    rcases files' with _ | ⟨b, rest'⟩
    · cases ha
    · have hb := (mem_iff_of_filter_eq h b).mpr (List.mem_cons_self ..)
      have hkey : key b = key a :=
        le_antisymm (head_le_of_pairwise hsorted' ha) (head_le_of_pairwise hsorted hb)
      obtain rfl : a = b := by
        have hhead := h (key a)
        simp only [List.filter_cons, hkey, decide_true, if_true] at hhead
        exact (List.cons.inj hhead).1
      have hrest (k : Nat) : rest.filter (fun file => key file = k) =
          rest'.filter fun file => key file = k := by
        have hk := h k
        by_cases hak : key a = k <;> simpa [List.filter_cons, hak] using hk
      rw [ih hsorted.of_cons hsorted'.of_cons hrest]

/-- A stable sort sorts, and keeps the order of what has the same key. -/
theorem mergeSort_key (key : FileId → Nat) (files : List FileId) :
    (files.mergeSort fun a b => key a ≤ key b).Pairwise (fun a b => key a ≤ key b) ∧
      ∀ k, (files.mergeSort fun a b => key a ≤ key b).filter (fun file => key file = k) =
        files.filter fun file => key file = k := by
  have htrans (a b c : FileId) (hab : decide (key a ≤ key b) = true)
      (hbc : decide (key b ≤ key c) = true) : decide (key a ≤ key c) = true := by
    simp only [decide_eq_true_eq] at *
    exact hab.trans hbc
  have htotal (a b : FileId) : (decide (key a ≤ key b) || decide (key b ≤ key a)) = true := by
    simpa using Nat.le_total (key a) (key b)
  constructor
  · simpa only [decide_eq_true_eq] using List.pairwise_mergeSort htrans htotal files
  · intro k
    have hlevel : (files.filter fun file => key file = k).Pairwise
        fun a b => decide (key a ≤ key b) = true := by
      refine List.pairwise_iff_forall_sublist.mpr fun {a b} hsub => ?_
      have ha := (List.mem_filter.mp (hsub.subset (by simp : a ∈ [a, b]))).2
      have hb := (List.mem_filter.mp (hsub.subset (by simp : b ∈ [a, b]))).2
      simp only [decide_eq_true_eq] at ha hb ⊢
      omega
    have hsub := List.sublist_mergeSort htrans htotal hlevel List.filter_sublist
    have hkept := hsub.filter fun file => key file = k
    rw [List.filter_filter] at hkept
    simp only [Bool.and_self] at hkept
    refine (hkept.eq_of_length ?_).symm
    exact ((List.mergeSort_perm files _).filter _).length_eq.symm

end Keys

/-! ## Heights -/

/-- The numbers of dependencies in the chains that lead from a file through the given files. -/
def chainLengths (dependencies : FileId → List FileId) (nodes : List FileId) (file : FileId) :
    Set Nat :=
  {n | ∃ last, Way (DependsOn dependencies nodes) file n last}

/-- The length of the longest chain of dependencies from a file through the given files. -/
noncomputable def height (dependencies : FileId → List FileId) (nodes : List FileId)
    (file : FileId) : Nat :=
  sSup (chainLengths dependencies nodes file)

/-- No chain of dependencies comes back to where it began. -/
def Acyclic (dependencies : FileId → List FileId) (nodes : List FileId) : Prop :=
  ∀ file, ¬ OnCycle dependencies nodes file

namespace Acyclic

variable {file d : FileId}

/-- There are no cycles if dependencies lead downwards. -/
theorem of_rank (rank : FileId → Nat)
    (h : ∀ file d, DependsOn dependencies nodes file d → rank d < rank file) :
    Acyclic dependencies nodes := by
  have hway {file d : FileId} (hd : Relation.TransGen (DependsOn dependencies nodes) file d) :
      rank d < rank file := by
    induction hd with
    | single hd => exact h _ _ hd
    | tail _ hd ih => exact (h _ _ hd).trans ih
  exact fun file hcycle => lt_irrefl _ (hway hcycle)

/-- Without cycles a chain meets none of the given files twice. -/
theorem exists_nodup_of_way (h : Acyclic dependencies nodes) {n : Nat}
    (hway : Way (DependsOn dependencies nodes) file n d) :
    ∃ met : List FileId, met.length = n ∧ met.Nodup ∧ met ⊆ nodes ∧
      ∀ x ∈ met, x = d ∨ Relation.TransGen (DependsOn dependencies nodes) x d := by
  induction hway with
  | start => exact ⟨[], rfl, List.nodup_nil, by simp, by simp⟩
  | @step n a b way edge ih =>
    obtain ⟨met, hlength, hnodup, hsubset, hleads⟩ := ih
    have hto (x : FileId) (hx : x ∈ met) :
        Relation.TransGen (DependsOn dependencies nodes) x b := by
      rcases hleads x hx with rfl | hx
      · exact .single edge
      · exact hx.tail edge
    refine ⟨b :: met, by simp [hlength], List.nodup_cons.mpr ⟨fun hb => h b (hto b hb), hnodup⟩,
      List.cons_subset.mpr ⟨edge.2.2, hsubset⟩, fun x hx => ?_⟩
    rcases List.mem_cons.mp hx with rfl | hx
    · exact .inl rfl
    · exact .inr (hto x hx)

theorem isGreatest_height (h : Acyclic dependencies nodes) (file : FileId) :
    IsGreatest (chainLengths dependencies nodes file) (height dependencies nodes file) := by
  have hbounded : BddAbove (chainLengths dependencies nodes file) := by
    refine ⟨nodes.length, ?_⟩
    rintro n ⟨last, hway⟩
    obtain ⟨met, rfl, hnodup, hsubset, -⟩ := h.exists_nodup_of_way hway
    exact (hnodup.subperm hsubset).length_le
  have hnonempty : (chainLengths dependencies nodes file).Nonempty := ⟨0, file, .start⟩
  exact ⟨Nat.sSup_mem hnonempty hbounded, fun _ hn => le_csSup hbounded hn⟩

theorem height_lt (h : Acyclic dependencies nodes) (hd : DependsOn dependencies nodes file d) :
    height dependencies nodes d < height dependencies nodes file := by
  obtain ⟨last, hway⟩ := (h.isGreatest_height d).1
  exact (h.isGreatest_height file).2 ⟨last, hway.cons hd⟩

/-- The next file of a longest chain stands one lower. -/
theorem exists_height_eq (h : Acyclic dependencies nodes) {k : Nat}
    (hk : height dependencies nodes file = k + 1) :
    ∃ d, DependsOn dependencies nodes file d ∧ height dependencies nodes d = k := by
  obtain ⟨last, hway⟩ := (h.isGreatest_height file).1
  rw [hk] at hway
  obtain ⟨d, hd, hrest⟩ := hway.exists_of_succ
  have hle : k ≤ height dependencies nodes d := (h.isGreatest_height d).2 ⟨last, hrest⟩
  have hlt := h.height_lt hd
  exact ⟨d, hd, by omega⟩

/-- Below a file there is one of each smaller height. -/
theorem exists_of_le_height (h : Acyclic dependencies nodes) (hfile : file ∈ nodes) {k : Nat}
    (hk : k ≤ height dependencies nodes file) :
    ∃ d ∈ nodes, height dependencies nodes d = k := by
  obtain ⟨m, hm⟩ := Nat.exists_eq_add_of_le hk
  induction m generalizing file with
  | zero => exact ⟨file, hfile, hm⟩
  | succ m ih =>
    obtain ⟨d, hd, hheight⟩ := h.exists_height_eq (hm.trans (Nat.add_assoc k m 1).symm)
    exact ih hd.2.2 (hheight ▸ Nat.le_add_right k m) hheight

end Acyclic

/-! ## Rounds -/

/-- The given files, once each, that stand at some height or above. -/
noncomputable def standing (dependencies : FileId → List FileId) (nodes : List FileId) (k : Nat) :
    List FileId :=
  nodes.eraseDups.filter fun file => k ≤ height dependencies nodes file

theorem mem_standing {file : FileId} {k : Nat} : file ∈ standing dependencies nodes k ↔
    file ∈ nodes ∧ k ≤ height dependencies nodes file := by
  simp [standing]

theorem nodup_standing (k : Nat) : (standing dependencies nodes k).Nodup :=
  (nodup_eraseDups nodes).filter _

/-- The files of one height. -/
noncomputable def level (dependencies : FileId → List FileId) (nodes : List FileId) (k : Nat) :
    List FileId :=
  nodes.eraseDups.filter fun file => height dependencies nodes file = k

theorem standing_filter_level (k : Nat) :
    (standing dependencies nodes k).filter (· ∉ level dependencies nodes k) =
      standing dependencies nodes (k + 1) := by
  rw [standing, List.filter_filter]
  refine List.filter_congr fun file hfile => ?_
  rw [Bool.eq_iff_iff]
  simp only [level, List.mem_filter, Bool.and_eq_true, decide_eq_true_eq, hfile, true_and]
  omega

theorem level_filter_height (j k : Nat) :
    (level dependencies nodes k).filter (fun file => height dependencies nodes file = j) =
      if j = k then level dependencies nodes j else [] := by
  rw [level, List.filter_filter]
  simp only [← Bool.decide_and]
  split_ifs with hj
  · exact List.filter_congr fun file _ => decide_eq_decide.mpr (by omega)
  · refine List.filter_eq_nil_iff.mpr fun file _ => ?_
    rw [decide_eq_true_eq]
    omega

theorem standing_filter_height (j k : Nat) :
    (standing dependencies nodes k).filter (fun file => height dependencies nodes file = j) =
      if k ≤ j then level dependencies nodes j else [] := by
  rw [standing, List.filter_filter]
  simp only [← Bool.decide_and]
  split_ifs with hk
  · exact List.filter_congr fun file _ => decide_eq_decide.mpr (by omega)
  · refine List.filter_eq_nil_iff.mpr fun file _ => ?_
    rw [decide_eq_true_eq]
    omega

/-- What stands at one height comes in front of what stands higher, as far as one height goes. -/
theorem level_append_filter (j k : Nat) :
    (level dependencies nodes k).filter (fun file => height dependencies nodes file = j) ++
        (standing dependencies nodes (k + 1)).filter
          (fun file => height dependencies nodes file = j) =
      (standing dependencies nodes k).filter fun file => height dependencies nodes file = j := by
  rw [level_filter_height, standing_filter_height, standing_filter_height]
  rcases Nat.lt_trichotomy j k with hj | rfl | hj
  · rw [if_neg (by omega), if_neg (by omega), if_neg (by omega), List.append_nil]
  · rw [if_pos rfl, if_neg (by omega), if_pos le_rfl, List.append_nil]
  · rw [if_neg (by omega), if_pos (Nat.succ_le_of_lt hj), if_pos hj.le, List.nil_append]

theorem eq_nil_of_blocks {n : Nat} {remaining : List FileId}
    (h : blocks dependencies probeLimit n remaining = .ok []) : remaining = [] := by
  unfold blocks at h
  split at h
  next => rfl
  next => cases h
  next m hne =>
    split at h
    next => cases h
    next =>
      cases hafter : blocks dependencies probeLimit m
          (remaining.filter (· ∉ nextBlock dependencies probeLimit remaining)) with
      | error e =>
        rw [hafter] at h
        cases h
      | ok found =>
        rw [hafter] at h
        cases h

namespace Acyclic

/-- What stands at some height waits for files that stand lower only. -/
theorem frontier_standing (h : Acyclic dependencies nodes) (k : Nat) :
    frontier dependencies (standing dependencies nodes k) = level dependencies nodes k := by
  rw [frontier, level, standing, List.filter_filter, ← standing]
  refine List.filter_congr fun file hfile => ?_
  rw [Bool.eq_iff_iff, Bool.and_eq_true, decide_eq_true_eq, decide_eq_true_eq, decide_eq_true_eq,
    List.eq_nil_iff_forall_not_mem]
  constructor
  · rintro ⟨hfree, hle⟩
    by_contra hne
    obtain ⟨m, hm⟩ := Nat.exists_eq_add_of_lt (Nat.lt_of_le_of_ne hle (Ne.symm hne))
    obtain ⟨d, hd, hheight⟩ := h.exists_height_eq hm
    have hstands : d ∈ standing dependencies nodes k :=
      mem_standing.mpr ⟨hd.2.2, hheight ▸ Nat.le_add_right k m⟩
    exact hfree d (mem_successors_iff.mpr ⟨hd.1, hd.2.1, hstands⟩)
  · intro heq
    refine ⟨fun d hd => ?_, heq.ge⟩
    obtain ⟨hmem, hne, hstands⟩ := mem_successors_iff.mp hd
    obtain ⟨hnode, hle⟩ := mem_standing.mp hstands
    have hlt := h.height_lt ⟨hmem, hne, hnode⟩
    omega

/-- A round gives out the files of the lowest height that is left. -/
theorem nextBlock_standing (h : Acyclic dependencies nodes) {k : Nat}
    (hne : standing dependencies nodes k ≠ []) :
    nextBlock dependencies probeLimit (standing dependencies nodes k) =
      level dependencies nodes k := by
  obtain ⟨file, hfile⟩ := List.exists_mem_of_ne_nil _ hne
  obtain ⟨hnode, hle⟩ := mem_standing.mp hfile
  obtain ⟨d, hd, hheight⟩ := h.exists_of_le_height hnode hle
  have hlevel : d ∈ level dependencies nodes k := by simp [level, hd, hheight]
  unfold nextBlock
  rw [h.frontier_standing k]
  split
  next hnil => exact absurd (hnil ▸ hlevel) List.not_mem_nil
  next => rfl

/-- The blocks from some height on are sorted by height, and have the files of each height in the
order in which they were given. -/
theorem blocks_standing (h : Acyclic dependencies nodes) {n k : Nat} {found : List (List FileId)}
    (hfound : blocks dependencies probeLimit n (standing dependencies nodes k) = .ok found) :
    found.flatten.Pairwise
        (fun a b => height dependencies nodes a ≤ height dependencies nodes b) ∧
      ∀ j, found.flatten.filter (fun file => height dependencies nodes file = j) =
        (standing dependencies nodes k).filter fun file => height dependencies nodes file = j := by
  induction found generalizing n k with
  | nil =>
    have hnil := eq_nil_of_blocks hfound
    simp [hnil]
  | cons block after ih =>
    obtain ⟨hne, hblock, m, hafter⟩ := of_blocks_cons hfound
    rw [h.nextBlock_standing hne] at hblock
    rw [hblock, standing_filter_level] at hafter
    obtain ⟨hsorted, hlevels⟩ := ih hafter
    have habove : after.flatten ⊆ standing dependencies nodes (k + 1) :=
      (nodup_of_blocks (nodup_standing (k + 1)) hafter).2
    have hheight (file : FileId) (hfile : file ∈ block) : height dependencies nodes file = k := by
      rw [hblock, level] at hfile
      exact of_decide_eq_true (List.mem_filter.mp hfile).2
    rw [List.flatten_cons]
    constructor
    · refine List.pairwise_append.mpr ⟨?_, hsorted, fun a ha b hb => ?_⟩
      · refine List.pairwise_iff_forall_sublist.mpr fun {a b} hsub => ?_
        rw [hheight a (hsub.subset (by simp)), hheight b (hsub.subset (by simp))]
      · have hb := (mem_standing.mp (habove hb)).2
        have ha := hheight a ha
        omega
    · intro j
      rw [List.filter_append, hlevels j, hblock]
      exact level_append_filter j k

end Acyclic

/-! ## The order -/

/-- Without cycles the order is the stable sort of the given files by height. -/
theorem topological_by_height (h : Acyclic dependencies nodes) (probeLimit : Nat) :
    let byHeight := nodes.eraseDups.mergeSort fun a b =>
      height dependencies nodes a ≤ height dependencies nodes b
    topological nodes dependencies probeLimit = .ok byHeight ∧
      (∀ file, IsGreatest (chainLengths dependencies nodes file)
        (height dependencies nodes file)) ∧
      ∀ k, byHeight.filter (fun file => height dependencies nodes file = k) =
        nodes.eraseDups.filter fun file => height dependencies nodes file = k := by
  intro byHeight
  obtain ⟨hsorted, hlevels⟩ := mergeSort_key (height dependencies nodes) nodes.eraseDups
  refine ⟨?_, h.isGreatest_height, hlevels⟩
  obtain ⟨found, hfound, horder, -⟩ := exists_blocks nodes dependencies probeLimit
  have hall : standing dependencies nodes 0 = nodes.eraseDups := by simp [standing]
  rw [← hall] at hfound
  obtain ⟨hfoundSorted, hfoundLevels⟩ := h.blocks_standing hfound
  rw [horder]
  congr 1
  refine eq_of_pairwise_of_filter_eq hfoundSorted hsorted fun k => ?_
  rw [hfoundLevels k, hall, hlevels k]

/-- Two files that wait for the same third one, which is given twice. -/
theorem topological_by_height_of_shared :
    let dependencies : FileId → List FileId := fun file => [[2, 0], [2], [], [0, 9]].getD file []
    let nodes : List FileId := [3, 1, 2, 0, 2]
    let byHeight := nodes.eraseDups.mergeSort fun a b =>
      height dependencies nodes a ≤ height dependencies nodes b
    Acyclic dependencies nodes ∧ byHeight = [2, 1, 0, 3] ∧
      topological nodes dependencies 0 = .ok byHeight ∧
      (∀ file, IsGreatest (chainLengths dependencies nodes file)
        (height dependencies nodes file)) ∧
      ∀ k, byHeight.filter (fun file => height dependencies nodes file = k) =
        nodes.eraseDups.filter fun file => height dependencies nodes file = k := by
  intro dependencies nodes byHeight
  have hacyclic : Acyclic dependencies nodes := by
    refine Acyclic.of_rank (fun file => [2, 1, 0, 3].idxOf file) fun file d hd => ?_
    have hfile : file < 4 := by
      by_contra hge
      have hnone : dependencies file = [] := List.getD_eq_default _ _ (by simpa using hge)
      exact List.not_mem_nil (hnone ▸ hd.1)
    have hfalls : ∀ file < 4, ∀ d ∈ dependencies file, d ≠ file → d ∈ nodes →
        [2, 1, 0, 3].idxOf d < [2, 1, 0, 3].idxOf file := by decide
    exact hfalls file hfile d hd.1 hd.2.1 hd.2.2
  have horder := topological_by_height hacyclic 0
  have heval : topological nodes dependencies 0 = .ok [2, 1, 0, 3] := by decide
  refine ⟨hacyclic, ?_, horder⟩
  exact Except.ok.inj (horder.1.symm.trans heval)

end Rebuild.Build.Order
