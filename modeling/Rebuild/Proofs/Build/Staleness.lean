import Mathlib
import Rebuild.Proofs.Build.Removal

/-! What becomes of the record of a file, step by step, apart from its edges. Main statement: a file
is flagged as stale if and only if it was marked, and since then neither removed nor compiled with
success, whatever else happened. -/
namespace Rebuild.Build

open Dependency (Record)

variable {σ τ : Type} {file : FileId} {s t : Session τ}

/-! ## What a step does to a record -/

/-- What a moment makes of the record of a file. An edit flags it, a removal drops it, and what is
learnt from a compilation clears the flag; in each case its parse tree goes. Nothing else changes it
in anything but edges. -/
inductive Touch (file : FileId) (m : Moment τ) : Prop where
  | marked (h : m.Marks file) (stale : m.after.cache.isStale file = true)
      (tree : m.after.cache.tree? file = none)
  | removed (h : m.Removes file) (empty : m.after.cache.record file = {})
  | learnt (h : m.Learns file) (stale : m.after.cache.isStale file = false)
      (tree : m.after.cache.tree? file = none)
  | left (marks : ¬ m.Marks file) (removes : ¬ m.Removes file) (learns : ¬ m.Learns file)
      (same : (m.after.cache.record file).bare = (m.before.cache.record file).bare)

namespace Session

theorem record_markDirty (s : Session τ) (p : Path) (file : FileId) :
    (s.markDirty p).2.cache.record file = if (s.markDirty p).1 = file then
      { s.cache.record file with stale := true, tree := none } else s.cache.record file := by
  have hcache : (s.markDirty p).2.cache = s.cache.markStale (s.markDirty p).1 := rfl
  rw [hcache, Dependency.Cache.markStale, Dependency.Cache.record_modifyRecord]
  split_ifs with hfile
  · rw [hfile]
  · rfl

/-- When files are marked one after the other, those among them are flagged, and no others. -/
theorem flags_markEach (s : Session τ) (files : List Path) (file : FileId) :
    if ∃ p ∈ files, (s.markEach files).workspace.files.id? p = some file then
      (s.markEach files).cache.isStale file = true ∧ (s.markEach files).cache.tree? file = none
    else ((s.markEach files).cache.record file).bare = (s.cache.record file).bare := by
  induction files generalizing s with
  | nil => simp [markEach]
  | cons p rest ih =>
    let t := (s.markDirty p).2
    have hrest := ih t
    have hnumber : (t.markEach rest).workspace.files.id? p = some (s.markDirty p).1 :=
      Workspace.FileRegistry.id?_of_prefix (t.markEach_grows rest).paths (s.id?_markDirty p)
    change if ∃ q ∈ p :: rest, (t.markEach rest).workspace.files.id? q = some file then
      (t.markEach rest).cache.isStale file = true ∧ (t.markEach rest).cache.tree? file = none
      else ((t.markEach rest).cache.record file).bare = (s.cache.record file).bare
    have hrecord := s.record_markDirty p file
    simp only [List.exists_mem_cons_iff, hnumber, Option.some.injEq]
    by_cases hlater : ∃ q ∈ rest, (t.markEach rest).workspace.files.id? q = some file
    · rw [if_pos hlater] at hrest
      rw [if_pos (.inr hlater)]
      exact hrest
    · rw [if_neg hlater] at hrest
      by_cases hfile : (s.markDirty p).1 = file
      · rw [if_pos hfile] at hrecord
        rw [if_pos (.inl hfile)]
        exact Dependency.Cache.flags_of_bare (hrest.trans (congrArg Record.bare hrecord))
      · rw [if_neg hfile] at hrecord
        rw [if_neg (not_or.mpr ⟨hfile, hlater⟩), hrest]
        exact congrArg Record.bare hrecord

theorem record_removeFile (s : Session τ) (p : Path) (file : FileId) :
    if (s.register p).1 = file then (s.removeFile p).2.cache.record file = {}
    else ((s.removeFile p).2.cache.record file).bare = (s.cache.record file).bare := by
  obtain ⟨-, -, -, table, hcache⟩ := s.removeFile_eq p
  rw [hcache]
  split_ifs with hfile
  · rw [Dependency.Cache.record_removeFile, if_pos hfile]
  · exact Dependency.Cache.bare_removeFile_of_ne { s.cache with table } hfile

theorem apply_touch (s : Session τ) (e : Event) :
    Touch file (⟨.event e, s, s.apply e⟩ : Moment τ) := by
  have hlearns : ¬ (⟨.event e, s, s.apply e⟩ : Moment τ).Learns file := by
    rintro ⟨_, _, hhappening, -⟩
    cases hhappening
  cases e with
  | markDirty p =>
    have hrecord := s.record_markDirty p file
    by_cases hfile : (s.markDirty p).1 = file
    · rw [if_pos hfile] at hrecord
      obtain ⟨hstale, htree⟩ := Dependency.Cache.flags_of_bare (congrArg Record.bare hrecord)
      exact .marked (.inl ⟨p, rfl, hfile⟩) hstale htree
    · rw [if_neg hfile] at hrecord
      refine .left ?_ (by simp [Moment.Removes]) hlearns (congrArg Record.bare hrecord)
      rintro (⟨q, hq, hnumber⟩ | ⟨hall, -⟩)
      · cases hq
        exact hfile hnumber
      · cases hall
  | markAllDirty =>
    have hflags := s.flags_markEach (s.workspace.sourceFiles s.tree) file
    split_ifs at hflags with hfile
    · exact .marked (.inr ⟨rfl, hfile⟩) hflags.1 hflags.2
    · refine .left ?_ (by simp [Moment.Removes]) hlearns hflags
      rintro (⟨q, hq, -⟩ | ⟨-, hmarks⟩)
      · cases hq
      · exact hfile hmarks
  | removeFile p =>
    have hrecord := s.record_removeFile p file
    split_ifs at hrecord with hfile
    · exact .removed ⟨p, rfl, hfile⟩ hrecord
    · refine .left (by simp [Moment.Marks]) ?_ hlearns hrecord
      rintro ⟨q, hq, hnumber⟩
      cases hq
      exact hfile hnumber
  | _ => exact .left (by simp [Moment.Marks]) (by simp [Moment.Removes]) hlearns rfl

/-- What a successful compilation of a queued file tells is taken into its record. -/
theorem settle_absorbs {s : Session τ} {request : CompileRequest} {output : CompileOutput}
    (hsuccess : output.status = .success) (hqueued : s.queue.contains request.file) :
    ∃ table found targets, (s.settle request output).cache =
      (({ s.cache with table } : Dependency.Cache _ τ).absorb request.file found targets).2 := by
  obtain ⟨tree, table, artifacts, read, hlearn⟩ :=
    learn_eq s request.path request.file request.project.name output
  obtain ⟨table', -, hupdate⟩ := Dependency.Cache.update_eq (Classpath.finder tree) read
    (Workspace.fileForTypeIn tree request.project.name) request.file artifacts
    { s.cache with table } s.workspace
  have hcache : (s.settle request output).cache =
      (s.learn request.file request.path request.project.name output).2.cache := by
    rw [settle_accepted hsuccess hqueued]
    exact (s.acceptSuccess_eq request.path request.file output request.project.name).2.1
  rw [hlearn] at hcache
  exact ⟨table', _, _, hcache.trans hupdate⟩

theorem settle_touch (s : Session τ) (request : CompileRequest) (output : CompileOutput) :
    Touch file (⟨.settled request output, s, s.settle request output⟩ : Moment τ) := by
  have hmarks : ¬ (⟨.settled request output, s, s.settle request output⟩ : Moment τ).Marks file := by
    simp [Moment.Marks]
  have hremoves : ¬ (⟨.settled request output, s, s.settle request output⟩ :
      Moment τ).Removes file := by
    simp [Moment.Removes]
  by_cases haccepted : output.status = .success ∧ s.queue.contains request.file
  · obtain ⟨hsuccess, hqueued⟩ := haccepted
    obtain ⟨table, found, targets, hcache⟩ := settle_absorbs hsuccess hqueued
    by_cases hfile : request.file = file
    · subst hfile
      have hbare := Dependency.Cache.bare_absorb { s.cache with table } request.file found targets
      rw [← hcache] at hbare
      obtain ⟨hstale, htree⟩ := Dependency.Cache.flags_of_bare hbare
      exact .learnt ⟨request, output, rfl, rfl, hsuccess, hqueued⟩ hstale htree
    · have hbare := Dependency.Cache.bare_absorb_of_ne { s.cache with table } request.file found
        targets (Ne.symm hfile)
      rw [← hcache] at hbare
      refine .left hmarks hremoves ?_ hbare
      rintro ⟨_, _, hhappening, hother, -⟩
      cases hhappening
      exact hfile hother
  · refine .left hmarks hremoves ?_ ?_
    · rintro ⟨_, _, hhappening, rfl, hsuccess, hqueued⟩
      cases hhappening
      exact haccepted ⟨hsuccess, hqueued⟩
    · rw [settle_cache_of_refused haccepted]

end Session

theorem Step.touch {p q : Phase} {m : Moment τ} (hm : Step p m q) (file : FileId) :
    Touch file m := by
  cases hm with
  | work hm =>
    cases hm with
    | event request s e => exact s.apply_touch e
    | settled request s output => exact s.settle_touch request output
    | called hsome =>
      obtain ⟨-, -, -, -, hcache⟩ := Session.request_eq_some hsome
      refine .left (by simp [Moment.Marks]) (by simp [Moment.Removes]) (by simp [Moment.Learns]) ?_
      rw [hcache]
    | _ =>
      exact .left (by simp [Moment.Marks]) (by simp [Moment.Removes]) (by simp [Moment.Learns]) rfl
  | event s e => exact s.apply_touch e
  | _ =>
    exact .left (by simp [Moment.Marks]) (by simp [Moment.Removes]) (by simp [Moment.Learns]) rfl

/-! ## What a history makes of the flag -/

/-- The file was marked, and since then neither removed nor compiled with success. -/
def Unbuilt (file : FileId) (moments : List (Moment τ)) : Prop :=
  ∃ earlier m since, moments = earlier ++ m :: since ∧ m.Marks file ∧
    ∀ n ∈ since, ¬ n.Removes file ∧ ¬ n.Succeeds file

theorem unbuilt_concat {seen : List (Moment τ)} {m : Moment τ} :
    Unbuilt file (seen ++ [m]) ↔
      m.Marks file ∨ Unbuilt file seen ∧ ¬ m.Removes file ∧ ¬ m.Succeeds file := by
  constructor
  · rintro ⟨earlier, n, since, hsplit, hmarks, hsince⟩
    rcases List.eq_nil_or_concat since with rfl | ⟨since, last, rfl⟩
    · obtain ⟨-, hlast⟩ := List.append_inj' hsplit rfl
      rw [List.singleton_inj.mp hlast]
      exact .inl hmarks
    · rw [List.concat_eq_append, ← List.cons_append, ← List.append_assoc] at hsplit
      obtain ⟨rfl, hlast⟩ := List.append_inj' hsplit rfl
      obtain rfl := List.singleton_inj.mp hlast
      simp only [List.concat_eq_append, List.forall_mem_append, List.forall_mem_singleton] at hsince
      exact .inr ⟨⟨earlier, n, since, rfl, hmarks, hsince.1⟩, hsince.2⟩
  · rintro (hmarks | ⟨⟨earlier, n, since, rfl, hmarks, hsince⟩, hm⟩)
    · exact ⟨seen, m, [], rfl, hmarks, by simp⟩
    · refine ⟨earlier, n, since ++ [m], by simp, hmarks, ?_⟩
      exact List.forall_mem_append.mpr ⟨hsince, List.forall_mem_singleton.mpr hm⟩

namespace Moment

variable {m : Moment τ}

theorem Removes.not_marks (h : m.Removes file) : ¬ m.Marks file := by
  obtain ⟨p, hp, -⟩ := h
  simp [Marks, hp]

theorem Learns.not_marks (h : m.Learns file) : ¬ m.Marks file := by
  obtain ⟨request, output, hhappening, -⟩ := h
  simp [Marks, hhappening]

theorem Learns.succeeds (h : m.Learns file) : m.Succeeds file := by
  obtain ⟨request, output, hhappening, hfile, hsuccess, -⟩ := h
  exact ⟨request, output, hhappening, hfile, hsuccess⟩

theorem Marks.enqueues (h : m.Marks file) : m.Enqueues file := h.imp_right .inl

end Moment

/-- The flag of a file after some moments. While a flagged file is being compiled it is queued, so
that its success cannot be one that is refused. -/
structure Flagged (file : FileId) (seen : List (Moment τ)) (p : Phase) (s : Session τ) : Prop where
  flag : s.cache.isStale file = true ↔ Unbuilt file seen
  queued : (p = .opening file ∨ ∃ request, p = .compiling request ∧ request.file = file) →
    s.cache.isStale file = true → s.queue.contains file

namespace Flagged

variable {seen : List (Moment τ)} {p q : Phase} {m : Moment τ}

theorem not_succeeds (h : Flagged file seen p m.before) (hm : Step p m q)
    (hlearns : ¬ m.Learns file) (hstale : m.before.cache.isStale file = true) :
    ¬ m.Succeeds file := by
  rintro ⟨request, output, hhappening, hfile, hsuccess⟩
  have hcompiling : p = .compiling request := by
    cases hm with
    | work hm => cases hm <;> cases hhappening; rfl
    | _ => cases hhappening
  have hqueued := h.queued (.inr ⟨request, hcompiling, hfile⟩) hstale
  exact hlearns ⟨request, output, hhappening, hfile, hsuccess, hqueued⟩

theorem flag_step (h : Flagged file seen p m.before) (hm : Step p m q) :
    m.after.cache.isStale file = true ↔ Unbuilt file (seen ++ [m]) := by
  rw [unbuilt_concat]
  cases hm.touch file with
  | marked hmarks hstale => simp [hmarks, hstale]
  | removed hremoves hempty =>
    have hstale := (Dependency.Cache.flags_of_bare (congrArg Record.bare hempty)).1
    simp [hremoves, hremoves.not_marks, hstale]
  | learnt hlearns hstale => simp [hlearns.succeeds, hlearns.not_marks, hstale]
  | left hmarks hremoves hlearns hsame =>
    have hstale := (Dependency.Cache.flags_of_bare hsame).1
    change _ = m.before.cache.isStale file at hstale
    rw [hstale, h.flag]
    constructor
    · exact fun hunbuilt => .inr ⟨hunbuilt, hremoves, h.not_succeeds hm hlearns (h.flag.mpr hunbuilt)⟩
    · exact fun hafter => (hafter.resolve_left hmarks).1

theorem queued_event {e : Event} {request : CompileRequest}
    (h : Flagged file seen (.compiling request) s) (hfile : request.file = file)
    (hstale : (s.apply e).cache.isStale file = true) : (s.apply e).queue.contains file := by
  have hm : Step (.compiling request) (⟨.event e, s, s.apply e⟩ : Moment τ) (.compiling request) :=
    .work (.event request s e)
  cases hm.touch file with
  | marked hmarks =>
    exact Queue.contains_of_isDue (hm.isDue_of_enqueues hmarks.enqueues)
  | removed hremoves hempty =>
    have hclear := (Dependency.Cache.flags_of_bare (congrArg Record.bare hempty)).1
    rw [hstale] at hclear
    cases hclear
  | learnt hlearns =>
    obtain ⟨_, _, hhappening, -⟩ := hlearns
    cases hhappening
  | left hmarks hremoves hlearns hsame =>
    have hbefore := (Dependency.Cache.flags_of_bare hsame).1.symm.trans hstale
    have hqueued := h.queued (.inr ⟨request, rfl, hfile⟩) hbefore
    refine (apply_keeps s fun path hpath hnumber => ?_).contains hqueued
    exact hremoves ⟨path, congrArg _ hpath, hnumber⟩

theorem step (h : Flagged file seen p m.before) (hm : Step p m q) :
    Flagged file (seen ++ [m]) q m.after := by
  refine ⟨h.flag_step hm, fun hq hstale => ?_⟩
  cases hm with
  | work hm =>
    cases hm with
    | @taken s g hdue =>
      obtain rfl : g = file := by simpa using hq
      exact (Queue.contains_setState _).trans (Queue.contains_of_isDue hdue)
    | called hsome =>
      obtain ⟨rfl, -, -, hqueue, hcache⟩ := Session.request_eq_some hsome
      obtain ⟨_, hphase, rfl⟩ := hq.resolve_left (by simp)
      cases hphase
      rw [hqueue]
      rw [hcache] at hstale
      exact h.queued (.inl rfl) hstale
    | event request s e =>
      obtain ⟨_, hphase, hfile⟩ := hq.resolve_left (by simp)
      cases hphase
      exact h.queued_event hfile hstale
    | _ => simp at hq
  | _ => simp at hq

end Flagged

/-- At every moment of every history, a file is flagged if and only if it was marked and since then
neither removed nor compiled with success. In particular it is not when its compilation succeeded
just now. -/
theorem stale_iff_unbuilt (tree : FileTree) (workspace : Workspace) (table : Table Classpath)
    (systemPrefixes : List String) (options : Options) (commands : List (Command σ τ))
    {moments rest : List (Moment τ)}
    (hsplit : history (Session.new tree workspace table systemPrefixes options) commands =
      moments ++ rest) (file : FileId) :
    let s := lastSession (Session.new tree workspace table systemPrefixes options) moments
    (s.cache.isStale file = true ↔ Unbuilt file moments) ∧
      ∀ m, moments.getLast? = some m → m.Succeeds file → s.cache.isStale file = false := by
  intro s
  obtain ⟨last, hchain⟩ :=
    history_chain (Session.new tree workspace table systemPrefixes options) commands
  rw [hsplit] at hchain
  obtain ⟨q, t, hmoments, -⟩ := hchain.split
  have hs : s = t := hmoments.lastSession_eq
  have hnew : Flagged file [] .idle
      (Session.new tree workspace table systemPrefixes options : Session τ) := by
    have hunmarked : ¬ Unbuilt file ([] : List (Moment τ)) := by
      rintro ⟨_, _, _, hnil, -⟩
      simp at hnil
    exact ⟨⟨fun h => (by cases h), fun h => absurd h hunmarked⟩, by simp⟩
  have hflagged : Flagged file moments q t :=
    hmoments.invariant (I := fun seen p s => Flagged file seen p s) (fun hm h => h.step hm) [] hnew
  have hflag : s.cache.isStale file = true ↔ Unbuilt file moments := hs ▸ hflagged.flag
  refine ⟨hflag, fun m hm hsucceeds => ?_⟩
  obtain ⟨seen, rfl⟩ := List.getLast?_eq_some_iff.mp hm
  rw [← Bool.not_eq_true, hflag, unbuilt_concat]
  rintro (hmarks | ⟨-, -, hnot⟩)
  · obtain ⟨_, _, hhappening, -⟩ := hsucceeds
    simp [Moment.Marks, hhappening] at hmarks
  · exact hnot hsucceeds

/-- A source is edited again and again while it is compiled, and never done. -/
theorem stale_while_restless :
    let moments := history Session.sample
      [.event (.markDirty ⟨"src/A.java"⟩), .build restless 3 false ()]
    (lastSession Session.sample moments).cache.isStale 0 = true ∧ Unbuilt 0 moments := by
  intro moments
  have hstale : (lastSession Session.sample moments).cache.isStale 0 = true := by decide +kernel
  have hsplit : history (Session.new _ _ _ _ _)
      [.event (.markDirty ⟨"src/A.java"⟩), .build restless 3 false ()] = moments ++ [] :=
    (List.append_nil _).symm
  exact ⟨hstale, (stale_iff_unbuilt _ _ _ _ _ _ hsplit 0).1.mp hstale⟩

/-- Compiles with success, while the source is edited and the build cancelled. -/
def hurried : Compiler Unit Unit where
  compile request _ _ := ⟨[.markDirty request.path, .cancel], { status := .success }, ()⟩

/-- The success of a compilation clears the flag also if the source was edited meanwhile, and waits
to be compiled again. -/
theorem edit_while_compiled_unflagged :
    let moments := history Session.sample
      [.event (.markDirty ⟨"src/A.java"⟩), .build hurried 2 false ()]
    (∃ (before later : List (Moment Unit)) (start edit cancel stop : Moment Unit),
      moments = before ++ start :: edit :: cancel :: stop :: later ∧ start.Calls 0 ∧
      edit.Marks 0 ∧ stop.Succeeds 0 ∧ ∀ n ∈ later, n.called?.isNone ∧ n.event?.isNone) ∧
    (lastSession Session.sample moments).queue.contains 0 ∧
    (lastSession Session.sample moments).cache.isStale 0 = false := by
  intro moments
  have hlater : ∀ n ∈ moments.drop 7, n.called?.isNone ∧ n.event?.isNone := by decide +kernel
  refine ⟨⟨moments.take 3, moments.drop 7, _, _, _, _, rfl, rfl, ?_, ?_, hlater⟩, ?_, ?_⟩
  · exact .inl ⟨⟨"src/A.java"⟩, rfl, rfl⟩
  · exact ⟨_, _, rfl, rfl, rfl⟩
  · decide +kernel
  · decide +kernel

end Rebuild.Build
