import Mathlib
import Rebuild.Build.Queue

/-! Where a file stands in the queue after each operation. A file that was just queued is due,
whatever was known of it. -/
namespace Rebuild.Build

namespace EntryState

theorem restart_eq (state : EntryState) :
    state.restart = .pending ∨ state.restart = .retrying := by
  cases state with
  | retrying => exact .inr rfl
  | _ => exact .inl rfl

end EntryState

namespace Queue

variable (q : Queue) (file g : FileId)

theorem contains_iff : q.contains file ↔ ∃ state, q.state? file = some state := by
  rw [contains, Dict.contains, Option.isSome_iff_exists]
  rfl

theorem isDue_iff :
    q.isDue file ↔ q.state? file = some .pending ∨ q.state? file = some .retrying := by
  unfold isDue
  split
  next h => simp [h]
  next h => simp [h]
  next hpending hretrying =>
    refine ⟨fun h => by simp at h, fun h => ?_⟩
    rcases h with h | h
    · exact absurd h hpending
    · exact absurd h hretrying

/-! ## Single operations -/

theorem state?_enqueue : (q.enqueue file).state? g =
    if file = g then some (((q.state? file).map EntryState.restart).getD .pending)
    else q.state? g := by
  unfold enqueue
  split <;> simp_all [state?, Dict.get?_put]

theorem state?_remove : (q.remove file).state? g = if file = g then none else q.state? g :=
  Dict.get?_erase q.entries file g

theorem state?_setState (state : EntryState) : (q.setState file state).state? g =
    if file = g then (q.state? g).map fun _ => state else q.state? g :=
  Dict.get?_modify q.entries file g fun _ => state

theorem state?_resetFailed :
    q.resetFailed.state? file = (q.state? file).map EntryState.restart :=
  Dict.get?_map q.entries EntryState.restart file

theorem state?_advance (current next : EntryState) : (q.advance file current next).state? g =
    if file = g ∧ q.state? file = some current then some next else q.state? g := by
  unfold advance
  by_cases hstate : q.state? file = some current
  · rw [if_pos hstate, state?_setState]
    by_cases hg : file = g
    · subst hg
      simp [hstate]
    · simp [hg]
  · simp [hstate]

theorem state?_complete : (q.complete file).state? g =
    if file = g ∧ q.state? file = some .compiling then none else q.state? g := by
  unfold complete
  by_cases hstate : q.state? file = some .compiling
  · rw [if_pos hstate, state?_remove]
    simp [hstate]
  · simp [hstate]

/-! ## Files that are due -/

theorem isDue_enqueue : (q.enqueue file).isDue file := by
  rw [isDue_iff, state?_enqueue, if_pos rfl]
  rcases hstate : q.state? file with _ | state
  · exact .inl rfl
  · have hrestart := state.restart_eq
    simpa using hrestart

variable {q file g}

theorem contains_of_isDue (h : q.isDue file) : q.contains file := by
  rw [contains_iff]
  rcases (isDue_iff q file).mp h with hstate | hstate
  · exact ⟨_, hstate⟩
  · exact ⟨_, hstate⟩

theorem ne_compiling_of_isDue (h : q.isDue file) : q.state? file ≠ some .compiling := by
  rcases (isDue_iff q file).mp h with hstate | hstate <;> simp [hstate]

theorem isDue_congr {q' : Queue} (hstate : q'.state? file = q.state? file) :
    q'.isDue file = q.isDue file := by
  simp only [isDue, hstate]

theorem isDue_enqueue_of_isDue (h : q.isDue file) : (q.enqueue g).isDue file := by
  by_cases hg : g = file
  · subst hg
    exact isDue_enqueue q g
  · rw [isDue_congr (q := q)]
    · exact h
    · rw [state?_enqueue, if_neg hg]

theorem isDue_resetFailed (h : q.contains file) : q.resetFailed.isDue file := by
  obtain ⟨state, hstate⟩ := (contains_iff q file).mp h
  rw [isDue_iff, state?_resetFailed, hstate]
  simpa using state.restart_eq

theorem isDue_enqueueAll_of_isDue (files : List FileId) (h : q.isDue file) :
    (q.enqueueAll files).isDue file := by
  induction files generalizing q with
  | nil => exact h
  | cons g rest ih => exact ih (isDue_enqueue_of_isDue h)

theorem isDue_enqueueAll {files : List FileId} (h : file ∈ files) :
    (q.enqueueAll files).isDue file := by
  induction files generalizing q with
  | nil => simp at h
  | cons g rest ih =>
    rcases List.mem_cons.mp h with rfl | hrest
    · exact isDue_enqueueAll_of_isDue rest (isDue_enqueue q file)
    · exact ih hrest

theorem state?_enqueueAll_of_not_mem {files : List FileId} (h : file ∉ files) :
    (q.enqueueAll files).state? file = q.state? file := by
  induction files generalizing q with
  | nil => rfl
  | cons g rest ih =>
    rw [List.mem_cons, not_or] at h
    have hg := state?_enqueue q g file
    rw [if_neg (Ne.symm h.1)] at hg
    exact (ih h.2).trans hg

/-- The next pass is planned with all files that are due. -/
theorem mem_runnable_of_isDue (h : q.isDue file) : file ∈ q.runnable := by
  unfold runnable
  rcases (isDue_iff q file).mp h with hstate | hstate
  · have hmem := Dict.mem_entries_of_get? hstate
    exact List.mem_map.mpr ⟨_, List.mem_filter.mpr ⟨hmem, by simp⟩, rfl⟩
  · have hmem := Dict.mem_entries_of_get? hstate
    exact List.mem_map.mpr ⟨_, List.mem_filter.mpr ⟨hmem, by simp⟩, rfl⟩

theorem contains_of_mem_runnable (h : file ∈ q.runnable) : q.contains file := by
  obtain ⟨e, he, rfl⟩ := List.mem_map.mp h
  rw [contains, Dict.contains_eq]
  exact List.mem_map_of_mem (List.mem_filter.mp he).1

theorem contains_congr {q' : Queue} (h : (q'.state? file).isSome = (q.state? file).isSome) :
    q'.contains file = q.contains file := h

theorem of_contains_enqueue (h : (q.enqueue g).contains file) : file = g ∨ q.contains file := by
  by_cases hg : g = file
  · exact .inl hg.symm
  · rw [contains_congr (q := q)] at h
    · exact .inr h
    · rw [state?_enqueue, if_neg hg]

theorem of_contains_enqueueAll {files : List FileId} (h : (q.enqueueAll files).contains file) :
    file ∈ files ∨ q.contains file := by
  by_cases hmem : file ∈ files
  · exact .inl hmem
  · rw [contains_congr (q := q)] at h
    · exact .inr h
    · rw [state?_enqueueAll_of_not_mem hmem]

theorem of_contains_remove (h : (q.remove g).contains file) : q.contains file := by
  obtain ⟨state, hstate⟩ := (contains_iff _ _).mp h
  rw [state?_remove] at hstate
  split_ifs at hstate
  exact (contains_iff _ _).mpr ⟨state, hstate⟩

theorem contains_setState (state : EntryState) :
    (q.setState g state).contains file = q.contains file := by
  apply contains_congr
  rw [state?_setState]
  split_ifs <;> simp

theorem contains_resetFailed : q.resetFailed.contains file = q.contains file := by
  apply contains_congr
  rw [state?_resetFailed]
  simp

/-! ## Lists of files -/

theorem mem_files : file ∈ q.files ↔ q.contains file := by
  rw [files, contains, Dict.contains_eq]

/-- The files whose states have a property, in the order of the queue. -/
theorem map_filter_entries (h : q.files.Nodup) (P : EntryState → Bool) :
    (q.entries.entries.filter fun e => P e.2).map Prod.fst =
      q.files.filter fun file => (q.state? file).any P := by
  unfold files Dict.keys
  rw [List.filter_map]
  congr 1
  refine List.filter_congr fun e he => ?_
  have hstate : q.state? e.1 = some e.2 := Dict.get?_of_mem_entries h he
  simp [hstate]

theorem failed_eq (h : q.files.Nodup) :
    q.failed = q.files.filter fun file => q.state? file = some .failed := by
  unfold failed
  rw [map_filter_entries h fun state => decide (state = .failed)]
  refine List.filter_congr fun file _ => ?_
  cases q.state? file <;> simp

theorem mem_runnable (h : q.files.Nodup) :
    file ∈ q.runnable ↔ ∃ state, q.state? file = some state ∧ state ≠ .failed := by
  unfold runnable
  rw [map_filter_entries h fun state => decide (state ≠ .failed), List.mem_filter, mem_files,
    contains_iff]
  constructor
  · rintro ⟨⟨state, hstate⟩, hany⟩
    exact ⟨state, hstate, by simpa [hstate] using hany⟩
  · rintro ⟨state, hstate, hne⟩
    exact ⟨⟨state, hstate⟩, by simpa [hstate] using hne⟩

theorem nodup_enqueue (h : q.files.Nodup) (file : FileId) : (q.enqueue file).files.Nodup := by
  unfold enqueue
  split
  · exact Dict.nodup_keys_put h _ _
  · exact Dict.nodup_keys_put h _ _

theorem nodup_enqueueAll (h : q.files.Nodup) (files : List FileId) :
    (q.enqueueAll files).files.Nodup := by
  induction files generalizing q with
  | nil => exact h
  | cons file rest ih => exact ih (nodup_enqueue h file)

theorem nodup_remove (h : q.files.Nodup) (file : FileId) : (q.remove file).files.Nodup := by
  unfold remove files
  rw [Dict.keys_erase]
  exact h.filter _

@[simp] theorem files_setState (q : Queue) (file : FileId) (state : EntryState) :
    (q.setState file state).files = q.files :=
  Dict.keys_modify _ _ _

@[simp] theorem files_resetFailed (q : Queue) : q.resetFailed.files = q.files :=
  Dict.keys_map _ _

@[simp] theorem files_advance (q : Queue) (file : FileId) (current next : EntryState) :
    (q.advance file current next).files = q.files := by
  unfold advance
  split
  · exact files_setState q file next
  · rfl

theorem nodup_complete (h : q.files.Nodup) (file : FileId) : (q.complete file).files.Nodup := by
  unfold complete
  split
  · exact nodup_remove h file
  · exact h

/-! ## Places -/

theorem files_enqueue (q : Queue) (file : FileId) :
    (q.enqueue file).files = if file ∈ q.files then q.files else q.files ++ [file] := by
  unfold enqueue
  split
  · exact Dict.keys_put _ _ _
  · exact Dict.keys_put _ _ _

/-- Files that are queued keep their places, and the others come last. -/
theorem files_enqueueAll (q : Queue) {files : List FileId} (h : files.Nodup) :
    (q.enqueueAll files).files = q.files ++ files.filter (· ∉ q.files) := by
  induction files generalizing q with
  | nil => simp [enqueueAll]
  | cons file rest ih =>
    obtain ⟨hfile, hrest⟩ := List.nodup_cons.mp h
    change ((q.enqueue file).enqueueAll rest).files = _
    rw [ih _ hrest, files_enqueue, List.filter_cons]
    by_cases hqueued : file ∈ q.files
    · simp [hqueued]
    · have hothers : rest.filter (· ∉ q.files ++ [file]) = rest.filter (· ∉ q.files) := by
        refine List.filter_congr fun g hg => ?_
        have hne : g ≠ file := fun heq => hfile (heq ▸ hg)
        simp [hne]
      simp only [hqueued, ↓reduceIte, not_false_eq_true, decide_true, hothers, List.append_assoc,
        List.singleton_append]

theorem files_remove (q : Queue) (file : FileId) :
    (q.remove file).files = q.files.filter (· ≠ file) :=
  Dict.keys_erase q.entries file

/-- A file that is queued again goes on waiting if it is to be tried again, and else starts anew. -/
theorem state?_enqueueAll_of_mem (q : Queue) {files : List FileId} (h : file ∈ files) :
    (q.enqueueAll files).state? file =
      some (((q.state? file).map EntryState.restart).getD .pending) := by
  induction files generalizing q with
  | nil => cases h
  | cons g rest ih =>
    change ((q.enqueue g).enqueueAll rest).state? file = _
    have henqueued := q.state?_enqueue g file
    by_cases hrest : file ∈ rest
    · rw [ih _ hrest, henqueued]
      split_ifs with hg
      · subst hg
        rcases q.state? g with _ | state
        · rfl
        · cases state <;> rfl
      · rfl
    · obtain rfl : file = g := (List.mem_cons.mp h).resolve_right hrest
      rw [state?_enqueueAll_of_not_mem hrest, henqueued, if_pos rfl]

/-! ## Files that stay -/

/-- The file stays in the queue, and its compilation does not begin. -/
structure Keeps (file : FileId) (q q' : Queue) : Prop where
  contains : q.contains file → q'.contains file
  compiling : q'.state? file = some .compiling → q.state? file = some .compiling

namespace Keeps

variable {q' q'' : Queue}

theorem of_state?_eq (h : q'.state? file = q.state? file) : Keeps file q q' :=
  ⟨fun hq => by rw [contains_iff] at hq ⊢; rwa [h], fun hq => h ▸ hq⟩

theorem of_isDue (h : q'.isDue file) : Keeps file q q' :=
  ⟨fun _ => contains_of_isDue h, fun hq => absurd hq (ne_compiling_of_isDue h)⟩

theorem trans (h : Keeps file q q') (h' : Keeps file q' q'') : Keeps file q q'' :=
  ⟨fun hq => h'.contains (h.contains hq), fun hq => h.compiling (h'.compiling hq)⟩

theorem enqueue (q : Queue) (g : FileId) : Keeps file q (q.enqueue g) := by
  by_cases hg : g = file
  · subst hg
    exact of_isDue (isDue_enqueue q g)
  · apply of_state?_eq
    rw [state?_enqueue, if_neg hg]

theorem enqueueAll (q : Queue) (files : List FileId) : Keeps file q (q.enqueueAll files) := by
  by_cases hmem : file ∈ files
  · exact of_isDue (isDue_enqueueAll hmem)
  · exact of_state?_eq (state?_enqueueAll_of_not_mem hmem)

theorem remove (q : Queue) (hg : g ≠ file) : Keeps file q (q.remove g) := by
  apply of_state?_eq
  rw [state?_remove, if_neg hg]

end Keeps

end Queue

end Rebuild.Build
