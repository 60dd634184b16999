import Mathlib
import Rebuild.FileTree.Edit
import Rebuild.Proofs.Classpath
import Rebuild.Proofs.FileTree.Spellings

/-! Class paths in use while the files change. Main statement: the first entry that has a class
answers, where a directory has what it has now and an archive what it had at the first lookup since
the archives were last forgotten that came to it and could open it. -/
namespace Rebuild.Classpath

variable {t : FileTree} {internal : String} {entries : List ClasspathEntry} {key : List Component}

/-! ## Lookups and what they leave behind -/

/-- A lookup that was made: of which class, and when the files were as in which tree. -/
structure Lookup where
  tree : FileTree
  internal : String

/-- The snapshots of archives that are held, by path. -/
abbrev Holdings := List Component → Option Snapshot

/-- What an entry has of a class: a directory what can be read now, an archive what was in its
snapshot, or what can be read now if there is no snapshot. -/
def shown (view : Holdings) (t : FileTree) (internal : String) :
    ClasspathEntry → Option (List UInt8)
  | .directory dir => findInDirectory t dir internal
  | .archive p =>
    findInSnapshot ((view p.components).getD (t.snapshot p).toOption.join) internal

/-- The snapshot that looking into an entry takes of the archive with a path. -/
def taken (t : FileTree) (key : List Component) : ClasspathEntry → Option Snapshot
  | .directory _ => none
  | .archive p => if p.components = key then (t.snapshot p).toOption else none

/-- The entries up to the first that has what is looked for. -/
def reached (has : ClasspathEntry → Bool) : List ClasspathEntry → List ClasspathEntry
  | [] => []
  | entry :: rest => entry :: if has entry then [] else reached has rest

/-- The snapshots that are held after a lookup. What is held stays; of what is reached the first
that can be opened is taken. -/
def Holdings.extend (entries : List ClasspathEntry) (view : Holdings) (l : Lookup) : Holdings :=
  fun key => (view key).or
    ((reached (fun entry => (shown view l.tree l.internal entry).isSome) entries).findSome?
      (taken l.tree key))

/-- The snapshots that are held after some lookups, of which the latest comes first. -/
def held (entries : List ClasspathEntry) : List Lookup → Holdings
  | [] => fun _ => none
  | l :: earlier => (held entries earlier).extend entries l

/-- Looking into an entry ends with an error other than that there is nothing. -/
def Fails (view : Holdings) (t : FileTree) (internal : String) : ClasspathEntry → Prop
  | .directory dir => ∃ fault ≠ .notFound, t.read (dir.join ⟨artifactName internal⟩) = .error fault
  | .archive p => view p.components = none ∧ ∃ fault, t.snapshot p = .error fault

theorem taken_eq_some_iff {entry : ClasspathEntry} {members : Snapshot} :
    taken t key entry = some members ↔
      ∃ p, entry = .archive p ∧ p.components = key ∧ t.snapshot p = .ok members := by
  cases entry with
  | directory dir => simp [taken]
  | archive p =>
    rw [taken]
    split_ifs with hkey
    · simp only [ClasspathEntry.archive.injEq, exists_eq_left', hkey, true_and]
      cases t.snapshot p <;> simp [Except.toOption]
    · simp [hkey]

theorem lookIn_eq_shown (c : Classpath) (t : FileTree) (internal : String) :
    c.lookIn t internal = shown c.archives.get? t internal := by
  funext entry
  cases entry <;> rfl

theorem get?_findInEntry (c : Classpath) (t : FileTree) (internal : String)
    (entry : ClasspathEntry) (key : List Component) :
    (c.findInEntry t entry internal).2.archives.get? key =
      (c.archives.get? key).or (taken t key entry) := by
  cases entry with
  | directory dir => exact (Option.or_none ..).symm
  | archive p =>
    rw [findInEntry, findInArchive, taken]
    by_cases hkey : p.components = key
    · subst hkey
      cases hheld : c.archives.get? p.components with
      | some members => exact hheld
      | none => cases t.snapshot p <;> simp [Except.toOption, hheld]
    · rw [if_neg hkey, Option.or_none]
      cases c.archives.get? p.components with
      | some members => rfl
      | none => cases t.snapshot p <;> simp [hkey]

theorem findInEntry_entries (c : Classpath) (t : FileTree) (internal : String)
    (entry : ClasspathEntry) : (c.findInEntry t entry internal).2.entries = c.entries := by
  cases entry with
  | directory dir => rfl
  | archive p =>
    rw [findInEntry, findInArchive]
    cases c.archives.get? p.components with
    | some members => rfl
    | none => cases t.snapshot p <;> rfl

/-- To look into an entry without the class changes nothing about where the class is. -/
theorem shown_findInEntry {c : Classpath} {entry : ClasspathEntry}
    (h : shown c.archives.get? t internal entry = none) :
    shown (c.findInEntry t entry internal).2.archives.get? t internal =
      shown c.archives.get? t internal := by
  funext other
  cases other with
  | directory dir => rfl
  | archive q =>
    rw [shown, shown, get?_findInEntry]
    cases hheld : c.archives.get? q.components with
    | some members => rfl
    | none =>
      rw [Option.none_or]
      cases htaken : taken t q.components entry with
      | none => rfl
      | some members =>
        obtain ⟨p, rfl, hsame, hopened⟩ := taken_eq_some_iff.mp htaken
        rw [shown, hsame, hheld, hopened] at h
        rw [Option.getD_some, Option.getD_none, show findInSnapshot members internal = none from h]
        cases hq : t.snapshot q with
        | error fault => rfl
        | ok others =>
          rw [← FileTree.snapshot_unique hsame hopened hq]
          exact h.symm

theorem extend_cons (view : Holdings) (l : Lookup) (entry : ClasspathEntry)
    (rest : List ClasspathEntry) : view.extend (entry :: rest) l key =
      ((view key).or (taken l.tree key entry)).or
        (if (shown view l.tree l.internal entry).isSome then none
        else (reached (fun other => (shown view l.tree l.internal other).isSome) rest).findSome?
          (taken l.tree key)) := by
  rw [Holdings.extend, reached, List.findSome?_cons, Option.or_assoc]
  congr 1
  cases taken l.tree key entry with
  | some members => rfl
  | none => split_ifs <;> rfl

/-- A lookup finds what the first entry has that has the class, and holds what it opened on the
way. -/
theorem findIn_shown (t : FileTree) (internal : String) (l : List ClasspathEntry) (c : Classpath) :
    (findIn t internal l c).1 = l.findSome? (shown c.archives.get? t internal) ∧
      (findIn t internal l c).2.entries = c.entries ∧
      (findIn t internal l c).2.archives.get? =
        Holdings.extend l c.archives.get? ⟨t, internal⟩ := by
  induction l generalizing c with
  | nil => exact ⟨rfl, rfl, funext fun key => (Option.or_none ..).symm⟩
  | cons entry rest ih =>
    have hfound := findInEntry_fst (t := t) (c := c) entry internal
    rw [lookIn_eq_shown] at hfound
    have hentries := c.findInEntry_entries t internal entry
    have hheld := c.get?_findInEntry t internal entry
    have hstable (h : shown c.archives.get? t internal entry = none) := shown_findInEntry h
    rcases hlook : c.findInEntry t entry internal with ⟨found, c'⟩
    simp only [hlook] at hfound hentries hheld hstable
    rw [findIn, hlook, List.findSome?_cons, ← hfound]
    cases found with
    | some bytes =>
      refine ⟨rfl, hentries, funext fun key => ?_⟩
      rw [extend_cons, ← hfound, ← hheld, Option.isSome_some, if_pos rfl, Option.or_none]
    | none =>
      obtain ⟨hfirst, hsame, hmore⟩ := ih c'
      rw [hstable hfound.symm] at hfirst
      refine ⟨hfirst, hsame.trans hentries, hmore.trans (funext fun key => ?_)⟩
      rw [extend_cons, ← hfound, ← hheld, Option.isSome_none, if_neg Bool.false_ne_true,
        Holdings.extend, hstable hfound.symm]

/-! ## Use over time -/

/-- What happens while a class path is in use: files are written or deleted, which leaves another
tree; a class is looked up; the archives that were opened are forgotten. -/
inductive Event where
  | edit (tree : FileTree)
  | lookup (internal : String)
  | refresh

/-- The files, and the class path with the archives that it has opened. -/
structure Situation where
  tree : FileTree
  classpath : Classpath

def Situation.after (now : Situation) : Event → Situation
  | .edit tree => { now with tree }
  | .lookup internal => { now with classpath := (now.classpath.find now.tree internal).2 }
  | .refresh => { now with classpath := now.classpath.refresh }

/-- The files, and the lookups since the archives were last forgotten, the latest first. -/
structure History where
  tree : FileTree
  lookups : List Lookup

def History.after (past : History) : Event → History
  | .edit tree => { past with tree }
  | .lookup internal => { past with lookups := ⟨past.tree, internal⟩ :: past.lookups }
  | .refresh => { past with lookups := [] }

def history (t : FileTree) (events : List Event) : History :=
  events.foldl History.after ⟨t, []⟩

/-- The archives that are open are those that the lookups took snapshots of. -/
structure Agrees (entries : List ClasspathEntry) (now : Situation) (past : History) : Prop where
  tree : now.tree = past.tree
  listed : now.classpath.entries = entries
  archives : now.classpath.archives.get? = held entries past.lookups

theorem Agrees.after {now : Situation} {past : History} (h : Agrees entries now past)
    (event : Event) : Agrees entries (now.after event) (past.after event) := by
  cases event with
  | edit tree => exact ⟨rfl, h.listed, h.archives⟩
  | refresh => exact ⟨h.tree, h.listed, funext fun _ => rfl⟩
  | lookup internal =>
    obtain ⟨-, hlisted, hheld⟩ := findIn_shown now.tree internal now.classpath.entries
      now.classpath
    refine ⟨h.tree, hlisted.trans h.listed, hheld.trans ?_⟩
    rw [h.listed, h.archives, h.tree]
    rfl

theorem Agrees.run {now : Situation} {past : History} (h : Agrees entries now past)
    (events : List Event) :
    Agrees entries (events.foldl Situation.after now) (events.foldl History.after past) := by
  induction events generalizing now past with
  | nil => exact h
  | cons event rest ih => exact ih (h.after event)

/-- A file where an archive should have its directory. -/
def blocked : FileTree := ({} : FileTree).write ⟨"d"⟩ (.bytes [0])

end Rebuild.Classpath
