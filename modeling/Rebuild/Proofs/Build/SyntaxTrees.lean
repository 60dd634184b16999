import Mathlib
import Rebuild.Build.SyntaxTrees
import Rebuild.Proofs.Build.Staleness
import Rebuild.Proofs.FileTree.Spellings

/-! Parse trees that are asked for between edits and builds. Main statement: once all edits of a file
were reported, the tree that is given is the one of its current text, and from one moment that drops
it to the next the parser makes it once. -/
namespace Rebuild.Build

variable {σ τ : Type} {file : FileId} {p q : Path} {s t : Session τ} {parse : Path → String → Option τ}

theorem readText_eq_of_alike (u : FileTree) (h : p.Alike q) : u.readText p = u.readText q := by
  simp only [FileTree.readText, FileTree.read, FileTree.content, FileTree.lookup,
    FileTree.resolve_eq_of_alike u h]

/-! ## Histories with questions -/

/-- What is asked of a session by those who want parse trees as well. The records of single files,
or all of them, may be cleared between the commands. -/
inductive Use (σ τ : Type) where
  | command (c : Command σ τ)
  | tree (file : FileId) (path : Path)
  | clearFile (file : FileId)
  | clear

/-- What happens, with the session before and after. -/
inductive Entry (τ : Type) where
  | moment (m : Moment τ)
  | asked (file : FileId) (path : Path) (before after : Session τ)
  | cleared (file : FileId) (before after : Session τ)
  | wiped (before after : Session τ)

namespace Entry

def before : Entry τ → Session τ
  | moment m => m.before
  | asked _ _ s _ | cleared _ s _ | wiped s _ => s

def after : Entry τ → Session τ
  | moment m => m.after
  | asked _ _ _ t | cleared _ _ t | wiped _ t => t

/-- The path under which the tree of a file is asked for. -/
def askedAt? (file : FileId) : Entry τ → Option Path
  | asked g path _ _ => if g = file then some path else none
  | _ => none

/-- A file is reported to be edited, or gone. -/
def Reports (file : FileId) : Entry τ → Prop
  | moment m => m.Marks file ∨ m.Removes file
  | _ => False

/-- The tree of a file is dropped: with each report, with what is learnt from a compilation, and
when the record is cleared. -/
def Drops (file : FileId) : Entry τ → Prop
  | moment m => m.Marks file ∨ m.Removes file ∨ m.Learns file
  | asked .. => False
  | cleared g .. => g = file
  | wiped .. => True

/-- What can be read at a path changes, whoever changes it. -/
def Edits (p : Path) (e : Entry τ) : Prop := e.before.tree.readText p ≠ e.after.tree.readText p

/-- The tree of a file is asked for, and the parser produces it. -/
def Produces (parse : Path → String → Option τ) (file : FileId) (e : Entry τ) : Prop :=
  ∃ path s t tree, e = asked file path s t ∧ (s.syntaxTree parse file path).1 = .parsed (some tree)

theorem Reports.drops {e : Entry τ} (h : e.Reports file) : e.Drops file := by
  cases e with
  | moment m => exact h.imp_right .inl
  | _ => cases h

end Entry

namespace Use

def entries (parse : Path → String → Option τ) (s : Session τ) : Use σ τ → List (Entry τ)
  | command c => (c.moments s).map .moment
  | tree file path => [.asked file path s (s.syntaxTree parse file path).2]
  | clearFile file => [.cleared file s { s with cache := s.cache.clearFile file }]
  | clear => [.wiped s { s with cache := s.cache.clear }]

def returns (s : Session τ) : Use σ τ → Bool
  | command c => c.returns s
  | _ => true

end Use

/-- The session after some entries. -/
def lastOf (s : Session τ) (entries : List (Entry τ)) : Session τ :=
  (entries.getLast?.map Entry.after).getD s

/-- All that happens, up to a build that does not return. -/
def chronicle (parse : Path → String → Option τ) (s : Session τ) :
    List (Use σ τ) → List (Entry τ)
  | [] => []
  | use :: rest =>
    let entries := use.entries parse s
    if use.returns s then entries ++ chronicle parse (lastOf s entries) rest else entries

/-- All edits of a file were reported: whenever what is read at its path changed, a report came with
the change or after it. -/
def Reported (file : FileId) (p : Path) (entries : List (Entry τ)) : Prop :=
  ∀ earlier e since, entries = earlier ++ e :: since → e.Edits p → ∃ n ∈ e :: since, n.Reports file

theorem Reported.of_report {earlier since : List (Entry τ)} {n : Entry τ} (hn : n.Reports file)
    (hsince : ∀ e ∈ since, ¬ e.Edits p) : Reported file p (earlier ++ n :: since) := by
  intro first e rest hsplit hedits
  rcases List.append_eq_append_iff.mp hsplit with ⟨between, rfl, hrest⟩ | ⟨between, rfl, hrest⟩
  · rcases between with _ | ⟨m, between⟩
    · obtain ⟨rfl, -⟩ := List.cons_eq_cons.mp hrest
      exact ⟨n, List.mem_cons_self .., hn⟩
    · obtain ⟨-, rfl⟩ := List.cons_eq_cons.mp hrest
      exact absurd hedits (hsince e (by simp))
  · rw [hrest]
    exact ⟨n, by simp, hn⟩

/-- The file was asked for under one path only, as far as files and parser can tell. -/
def AskedAlike (parse : Path → String → Option τ) (file : FileId) (p : Path)
    (entries : List (Entry τ)) : Prop :=
  ∀ e ∈ entries, ∀ q ∈ e.askedAt? file, q.Alike p ∧ parse q = parse p

/-! ## What can follow each other -/

/-- The entries there can be. -/
inductive Admitted (parse : Path → String → Option τ) : Entry τ → Prop where
  | moment {before after : Phase} {m : Moment τ} (h : Step before m after) : Admitted parse (.moment m)
  | asked (file : FileId) (path : Path) (s : Session τ) :
      Admitted parse (.asked file path s (s.syntaxTree parse file path).2)
  | cleared (file : FileId) (s : Session τ) :
      Admitted parse (.cleared file s { s with cache := s.cache.clearFile file })
  | wiped (s : Session τ) : Admitted parse (.wiped s { s with cache := s.cache.clear })

/-- Entries that lead from one session to another. -/
inductive Trail (parse : Path → String → Option τ) :
    Session τ → List (Entry τ) → Session τ → Prop where
  | nil (s : Session τ) : Trail parse s [] s
  | cons {e : Entry τ} {rest : List (Entry τ)} {t : Session τ} (h : Admitted parse e)
      (hrest : Trail parse e.after rest t) : Trail parse e.before (e :: rest) t

namespace Trail

variable {entries more : List (Entry τ)} {e : Entry τ} {u : Session τ}

theorem append (h : Trail parse s entries t) (hmore : Trail parse t more u) :
    Trail parse s (entries ++ more) u := by
  induction h with
  | nil => exact hmore
  | cons h _ ih => exact .cons h (ih hmore)

theorem split (h : Trail parse s (entries ++ more) t) :
    ∃ u, Trail parse s entries u ∧ Trail parse u more t := by
  induction entries generalizing s with
  | nil => exact ⟨s, .nil s, h⟩
  | cons e rest ih =>
    cases h with
    | cons h hrest =>
      obtain ⟨u, hfirst, hsecond⟩ := ih hrest
      exact ⟨u, .cons h hfirst, hsecond⟩

theorem split_cons (h : Trail parse s (entries ++ e :: more) t) :
    Trail parse s entries e.before ∧ Admitted parse e ∧ Trail parse e.after more t := by
  obtain ⟨u, hfirst, hsecond⟩ := h.split
  cases hsecond with
  | cons he hmore => exact ⟨hfirst, he, hmore⟩

theorem lastOf_eq (h : Trail parse s entries t) : lastOf s entries = t := by
  induction h with
  | nil => rfl
  | @cons e rest t h _ ih =>
    rw [← ih]
    simp only [lastOf, List.getLast?_cons]
    cases rest.getLast? <;> rfl

theorem of_chain {before after : Phase} {moments : List (Moment τ)}
    (h : Chain Step before s moments after t) : Trail parse s (moments.map .moment) t := by
  induction h with
  | nil p s => exact .nil s
  | cons h _ ih => exact .cons (.moment h) ih

/-- What each entry preserves holds at the end; `seen` are the entries so far. -/
theorem invariant {I : List (Entry τ) → Session τ → Prop}
    (hstep : ∀ {seen e}, Admitted parse e → I seen e.before → I (seen ++ [e]) e.after)
    (h : Trail parse s entries t) (seen : List (Entry τ)) (hI : I seen s) : I (seen ++ entries) t := by
  induction h generalizing seen with
  | nil => simpa using hI
  | @cons e _ _ h _ ih => simpa using ih (seen ++ [e]) (hstep h hI)

end Trail

theorem Use.entries_trail (parse : Path → String → Option τ) (s : Session τ) (use : Use σ τ) :
    ∃ t, Trail parse s (use.entries parse s) t := by
  cases use with
  | command c =>
    obtain ⟨t, hchain⟩ := c.moments_ends s
    exact ⟨t, .of_chain hchain⟩
  | tree file path => exact ⟨_, .cons (.asked file path s) (.nil _)⟩
  | clearFile file => exact ⟨_, .cons (.cleared file s) (.nil _)⟩
  | clear => exact ⟨_, .cons (.wiped s) (.nil _)⟩

theorem chronicle_trail (parse : Path → String → Option τ) (s : Session τ) (uses : List (Use σ τ)) :
    ∃ t, Trail parse s (chronicle parse s uses) t := by
  induction uses generalizing s with
  | nil => exact ⟨s, .nil s⟩
  | cons use rest ih =>
    obtain ⟨t, huse⟩ := use.entries_trail parse s
    unfold chronicle
    split
    next =>
      obtain ⟨u, hrest⟩ := ih t
      simp only [huse.lastOf_eq]
      exact ⟨u, huse.append hrest⟩
    next => exact ⟨t, huse⟩

/-! ## What becomes of a kept tree -/

/-- What an entry makes of the tree that is kept of a file. -/
inductive TreeStep (parse : Path → String → Option τ) (file : FileId) (e : Entry τ) : Prop where
  | drops (h : e.Drops file) (tree : e.after.cache.tree? file = none)
  | stays (h : ¬ e.Drops file) (hnew : ¬ e.Produces parse file)
      (same : e.after.cache.tree? file = e.before.cache.tree? file)
  | produces {path : Path} {s t : Session τ} {text : String} {tree : τ}
      (h : e = .asked file path s t) (none : s.cache.tree? file = none)
      (read : t.tree.readText path = .ok text) (parsed : parse path text = some tree)
      (kept : t.cache.tree? file = some tree)

theorem Session.tree?_clearFile (s : Session τ) (g file : FileId) :
    (s.cache.clearFile g).tree? file = if g = file then none else s.cache.tree? file := by
  have hbare := Dependency.Cache.bare_clearFile s.cache g file
  split_ifs at hbare with hg
  · rw [if_pos hg.1]
    exact (Dependency.Cache.flags_of_bare hbare).2
  · rw [(Dependency.Cache.flags_of_bare hbare).2]
    split_ifs with hfile
    · subst hfile
      have hnone : s.cache.records.get? g = none := by
        rw [← Option.not_isSome_iff_eq_none]
        exact fun hsome => hg ⟨rfl, hsome⟩
      unfold Dependency.Cache.record
      rw [hnone]
      rfl
    · rfl

/-- A question leaves the session as it is, unless the parser produces a tree. -/
theorem Session.syntaxTree_cases (parse : Path → String → Option τ) (file : FileId) (path : Path)
    (s : Session τ) :
    (∃ tree, s.cache.tree? file = some tree ∧ s.syntaxTree parse file path = (.kept tree, s)) ∨
    (s.cache.tree? file = none ∧ (s.tree.readText path).toOption.bind (parse path) = none ∧
      ((s.syntaxTree parse file path).1 = .unreadable ∨
        (s.syntaxTree parse file path).1 = .parsed none) ∧
      (s.syntaxTree parse file path).2 = s) ∨
    ∃ text tree, s.cache.tree? file = none ∧ s.tree.readText path = .ok text ∧
      parse path text = some tree ∧ s.syntaxTree parse file path =
        (.parsed (some tree), { s with cache := s.cache.setTree file tree }) := by
  unfold syntaxTree
  cases hkept : s.cache.tree? file with
  | some tree => exact .inl ⟨tree, rfl, rfl⟩
  | none =>
    cases hread : s.tree.readText path with
    | error fault => exact .inr (.inl ⟨rfl, rfl, .inl rfl, rfl⟩)
    | ok text =>
      cases hparse : parse path text with
      | none =>
        refine .inr (.inl ⟨rfl, hparse, .inr ?_, ?_⟩) <;> simp only [hparse]
      | some tree =>
        refine .inr (.inr ⟨text, tree, rfl, rfl, hparse, ?_⟩)
        simp only [hparse]

theorem Admitted.treeStep {e : Entry τ} (h : Admitted parse e) (file : FileId) :
    TreeStep parse file e := by
  cases h with
  | @moment _ _ m hm =>
    cases hm.touch file with
    | marked hmarks _ htree => exact .drops (.inl hmarks) htree
    | removed hremoves hempty =>
      have htree := (Dependency.Cache.flags_of_bare (congrArg Dependency.Record.bare hempty)).2
      exact .drops (.inr (.inl hremoves)) htree
    | learnt hlearns _ htree => exact .drops (.inr (.inr hlearns)) htree
    | left hmarks hremoves hlearns hsame =>
      refine .stays ?_ (by rintro ⟨_, _, _, _, ⟨⟩, -⟩) (Dependency.Cache.flags_of_bare hsame).2
      rintro (h | h | h)
      · exact hmarks h
      · exact hremoves h
      · exact hlearns h
  | asked g path s =>
    rcases s.syntaxTree_cases parse g path with ⟨tree, hkept, hanswer⟩ |
        ⟨hnone, -, hanswer, hsame⟩ | ⟨text, tree, hnone, hread, hparse, hanswer⟩
    · refine .stays (fun h => h) ?_ (by rw [hanswer]; rfl)
      rintro ⟨_, _, _, _, ⟨⟩, hproduced⟩
      rw [hanswer] at hproduced
      cases hproduced
    · refine .stays (fun h => h) ?_ (by rw [hsame]; rfl)
      rintro ⟨_, _, _, _, ⟨⟩, hproduced⟩
      rw [hproduced] at hanswer
      rcases hanswer with hanswer | hanswer <;> cases hanswer
    · have htree : (s.cache.setTree g tree).tree? file =
          if g = file then some tree else s.cache.tree? file := by
        unfold Dependency.Cache.tree? Dependency.Cache.setTree
        rw [Dependency.Cache.record_modifyRecord]
        split_ifs <;> rfl
      by_cases hg : g = file
      · subst hg
        rw [if_pos rfl] at htree
        refine .produces rfl hnone ?_ hparse ?_ <;> rw [hanswer]
        · exact hread
        · exact htree
      · rw [if_neg hg] at htree
        refine .stays (fun h => h) ?_ (by rw [hanswer]; exact htree)
        rintro ⟨_, _, _, _, ⟨⟩, -⟩
        exact hg rfl
  | cleared g s =>
    have htree := s.tree?_clearFile g file
    by_cases hg : g = file
    · rw [if_pos hg] at htree
      exact .drops hg htree
    · rw [if_neg hg] at htree
      exact .stays hg (by rintro ⟨_, _, _, _, ⟨⟩, -⟩) htree
  | wiped s => exact .drops trivial rfl

/-- The tree that is kept of a file is the one of the text that the parser was given when it was
last produced, which nobody changed since. Nothing dropped it since. -/
def Current (parse : Path → String → Option τ) (file : FileId) (seen : List (Entry τ))
    (s : Session τ) : Prop :=
  ∀ tree, s.cache.tree? file = some tree → ∃ earlier path u v since,
    seen = earlier ++ .asked file path u v :: since ∧ (∀ e ∈ since, ¬ e.Drops file) ∧
    ((s.tree.readText path).toOption.bind (parse path) = some tree ∨ ∃ e ∈ since, e.Edits path)

theorem Current.step {seen : List (Entry τ)} {e : Entry τ} (h : Current parse file seen e.before)
    (he : Admitted parse e) : Current parse file (seen ++ [e]) e.after := by
  intro tree htree
  cases he.treeStep file with
  | drops _ hnone =>
    rw [htree] at hnone
    cases hnone
  | stays hdrops _ hsame =>
    obtain ⟨earlier, path, u, v, since, rfl, hsince, hread⟩ := h tree (hsame ▸ htree)
    refine ⟨earlier, path, u, v, since ++ [e], by simp, ?_, ?_⟩
    · exact List.forall_mem_append.mpr ⟨hsince, List.forall_mem_singleton.mpr hdrops⟩
    · rcases hread with hread | ⟨n, hn, hedits⟩
      · by_cases hedits : e.Edits path
        · exact .inr ⟨e, by simp, hedits⟩
        · have hsame : e.before.tree.readText path = e.after.tree.readText path := of_not_not hedits
          exact .inl (hsame ▸ hread)
      · exact .inr ⟨n, List.mem_append_left _ hn, hedits⟩
  | @produces path u v text made hasked _ hread hparsed hkept =>
    subst hasked
    obtain rfl : made = tree := Option.some.inj (hkept.symm.trans htree)
    refine ⟨seen, path, u, v, [], rfl, by simp, .inl ?_⟩
    change (v.tree.readText path).toOption.bind (parse path) = some made
    rw [hread]
    exact hparsed

/-- A tree that is kept, and not dropped, is kept on. -/
theorem Trail.kept {entries : List (Entry τ)} (h : Trail parse s entries t) {tree : τ}
    (hs : s.cache.tree? file = some tree) (hdrops : ∀ e ∈ entries, ¬ e.Drops file) :
    t.cache.tree? file = some tree := by
  induction h with
  | nil => exact hs
  | @cons e rest t he _ ih =>
    have hrest : ∀ n ∈ rest, ¬ n.Drops file := fun n hn => hdrops n (List.mem_cons_of_mem e hn)
    cases he.treeStep file with
    | drops hdropped => exact absurd hdropped (hdrops e (List.mem_cons_self ..))
    | stays _ _ hsame => exact ih (hsame.trans hs) hrest
    | produces hasked hnone =>
      subst hasked
      cases hnone.symm.trans hs

/-! ## Answers -/

theorem Admitted.of_produces {e : Entry τ} (he : Admitted parse e) (h : e.Produces parse file) :
    e.before.cache.tree? file = none ∧ ∃ tree, e.after.cache.tree? file = some tree := by
  cases he.treeStep file with
  | drops hdrops =>
    obtain ⟨_, _, _, _, rfl, -⟩ := h
    cases hdrops
  | stays _ hnew => exact absurd h hnew
  | produces hasked hnone _ _ hkept =>
    subst hasked
    exact ⟨hnone, _, hkept⟩

/-- Once all edits were reported, a question is answered with the current tree: only an edit can put
a kept tree out of date, and the report of this edit would have dropped it. -/
theorem Current.answer {seen : List (Entry τ)} (h : Current parse file seen s)
    (halike : AskedAlike parse file p seen) (hreported : Reported file p seen) :
    (s.syntaxTree parse file p).1.tree? = (s.tree.readText p).toOption.bind (parse p) := by
  rcases s.syntaxTree_cases parse file p with ⟨kept, hkept, hanswer⟩ |
      ⟨-, hread, hanswer, -⟩ | ⟨text, made, -, hread, hparse, hanswer⟩
  · rw [hanswer]
    obtain ⟨earlier, q, u, v, since, rfl, hsince, hread⟩ := h kept hkept
    obtain ⟨hq, hparse⟩ := halike (.asked file q u v) (by simp) q (if_pos rfl)
    have htext (u : FileTree) := readText_eq_of_alike u hq
    rcases hread with hread | ⟨n, hn, hedits⟩
    · rw [htext, hparse] at hread
      exact hread.symm
    · obtain ⟨first, rest, rfl⟩ := List.append_of_mem hn
      unfold Entry.Edits at hedits
      rw [htext, htext] at hedits
      obtain ⟨report, hmem, hreports⟩ := hreported (earlier ++ .asked file q u v :: first) n rest
        (by simp) hedits
      exact absurd hreports.drops (hsince report (List.mem_append_right _ hmem))
  · rw [hread]
    rcases hanswer with hanswer | hanswer <;> rw [hanswer] <;> rfl
  · rw [hanswer, hread]
    exact hparse.symm

/-- Between two productions of a tree there is a moment that drops it. -/
theorem Trail.exists_drops {before between later : List (Entry τ)} {e e' : Entry τ}
    (h : Trail parse s (before ++ e :: (between ++ e' :: later)) t) (he : e.Produces parse file)
    (he' : e'.Produces parse file) : ∃ n ∈ between, n.Drops file := by
  obtain ⟨-, hadmitted, hmore⟩ := h.split_cons
  obtain ⟨hbetween, hadmitted', -⟩ := hmore.split_cons
  obtain ⟨-, kept, hkept⟩ := hadmitted.of_produces he
  obtain ⟨hnone, -⟩ := hadmitted'.of_produces he'
  by_contra hnever
  push Not at hnever
  rw [hbetween.kept hkept hnever] at hnone
  cases hnone

theorem Admitted.of_drops {e : Entry τ} (he : Admitted parse e) (h : e.Drops file) :
    e.after.cache.tree? file = none := by
  cases he.treeStep file with
  | drops _ hnone => exact hnone
  | stays hnot => exact absurd h hnot
  | produces hasked =>
    subst hasked
    cases h

/-- Whatever was done to a session and whatever was asked of it: a question about a file of which all
edits were reported is answered with what the parser makes of the current text, and with nothing if
the file cannot be read or parsed, as long as the path was not spelled in a way that matters to files
or parser. Between two times that the parser produces a tree of the file, it was dropped. -/
theorem trees_current (tree : FileTree) (workspace : Workspace) (table : Table Classpath)
    (systemPrefixes : List String) (options : Options) (parse : Path → String → Option τ)
    (uses : List (Use σ τ)) (file : FileId) :
    let entries := chronicle parse (Session.new tree workspace table systemPrefixes options) uses
    (∀ before p s t later, entries = before ++ .asked file p s t :: later →
      AskedAlike parse file p before → Reported file p before →
      (s.syntaxTree parse file p).1.tree? = (s.tree.readText p).toOption.bind (parse p)) ∧
    (∀ before e between e' later, entries = before ++ e :: (between ++ e' :: later) →
      e.Produces parse file → e'.Produces parse file → ∃ n ∈ between, n.Drops file) ∧
    ∀ e ∈ entries, e.Drops file → e.after.cache.tree? file = none := by
  intro entries
  obtain ⟨last, htrail⟩ : ∃ last, Trail parse _ entries last := chronicle_trail parse _ uses
  refine ⟨fun before p s t later hsplit halike hreported => ?_,
    fun before e between e' later hsplit => ?_, fun e he hdrops => ?_⟩
  · rw [hsplit] at htrail
    obtain ⟨hbefore, -, -⟩ := htrail.split_cons
    have hcurrent : Current parse file before s :=
      hbefore.invariant (I := Current parse file) (fun he h => h.step he) []
        (fun _ hnone => by cases hnone)
    exact hcurrent.answer halike hreported
  · rw [hsplit] at htrail
    exact htrail.exists_drops
  · obtain ⟨before, later, hsplit⟩ := List.append_of_mem he
    rw [hsplit] at htrail
    obtain ⟨-, hadmitted, -⟩ := htrail.split_cons
    exact hadmitted.of_drops hdrops

/-- Writes a longer source while it compiles the old one, and reports it. -/
def rewriting : Compiler Unit Nat where
  compile request _ _ :=
    ⟨[.write request.path [97, 98], .markDirty request.path, .cancel], { status := .success }, ()⟩

/-- A source is written, asked for twice, and asked for again after it changed while it was
compiled. -/
def askedThrice : List (Use Unit Nat) :=
  let p : Path := ⟨"src/A.java"⟩
  [.command (.event (.write p [97])), .command (.event (.markDirty p)), .tree 0 p, .tree 0 p,
    .command (.build rewriting 2 false ()), .tree 0 p]

/-- What happens then, where the tree of a text is its length. -/
def thrice : List (Entry Nat) :=
  chronicle (fun _ text => some text.length) Session.sample askedThrice

theorem thrice_runs :
    (∀ e ∈ thrice, ∀ q ∈ e.askedAt? 0, q.text = "src/A.java") ∧
    ∃ m s t, thrice = (thrice.take 8 ++ .moment m :: (thrice.drop 9).take 3) ++
        .asked 0 ⟨"src/A.java"⟩ s t :: thrice.drop 13 ∧
      m.Marks 0 ∧ s.tree.readText ⟨"src/A.java"⟩ = .ok "ab" ∧
      ∀ e ∈ (thrice.drop 9).take 3, ¬ e.Edits ⟨"src/A.java"⟩ := by
  have hasked : ∀ e ∈ thrice, ∀ q ∈ e.askedAt? 0, q.text = "src/A.java" := by decide +kernel
  have hquiet : ∀ e ∈ (thrice.drop 9).take 3, e.before.tree.readText ⟨"src/A.java"⟩ =
      e.after.tree.readText ⟨"src/A.java"⟩ := by decide +kernel
  refine ⟨hasked, _, _, _, rfl, .inl ⟨⟨"src/A.java"⟩, rfl, rfl⟩, ?_, fun e he => ?_⟩
  · decide +kernel
  · exact not_not_intro (hquiet e he)

/-- The tree given in the end is that of the text written last. -/
theorem tree_after_rewriting : ∃ before s t later,
    thrice = before ++ .asked 0 ⟨"src/A.java"⟩ s t :: later ∧
      Reported 0 ⟨"src/A.java"⟩ before ∧ s.tree.readText ⟨"src/A.java"⟩ = .ok "ab" ∧
      (s.syntaxTree (fun _ text => some text.length) 0 ⟨"src/A.java"⟩).1.tree? = some 2 := by
  obtain ⟨hasked, m, s, t, hsplit, hmarks, hread, hquiet⟩ := thrice_runs
  have hreported : Reported 0 ⟨"src/A.java"⟩
      (thrice.take 8 ++ .moment m :: (thrice.drop 9).take 3) := .of_report (.inl hmarks) hquiet
  have halike : AskedAlike (fun _ text => some text.length) 0 ⟨"src/A.java"⟩
      (thrice.take 8 ++ .moment m :: (thrice.drop 9).take 3) := by
    intro e he q hq
    have htext := hasked e (hsplit ▸ List.mem_append_left _ he) q hq
    obtain rfl : q = ⟨"src/A.java"⟩ := congrArg Path.mk htext
    exact ⟨⟨rfl, rfl, rfl⟩, rfl⟩
  have hcurrent := (trees_current _ _ _ _ _ (fun _ text => some text.length) askedThrice 0).1 _ _ _ _
    _ hsplit halike hreported
  rw [hread] at hcurrent
  exact ⟨_, s, t, _, hsplit, hreported, hread, hcurrent⟩

/-- A source is asked for under two spellings of its path. -/
def askedRespelled : List (Use Unit String) :=
  [.command (.event (.write ⟨"src/A.java"⟩ [97])), .command (.event (.markDirty ⟨"src/A.java"⟩)),
    .tree 0 ⟨"src/A.java"⟩, .tree 0 ⟨"src/./A.java"⟩]

/-- What happens then, where the tree of a text shows the path under which it was parsed. -/
def respelled : List (Entry String) :=
  chronicle (fun path _ => some path.text) Session.sample askedRespelled

theorem respelled_runs : ∃ m s t, respelled =
      (respelled.take 1 ++ .moment m :: (respelled.drop 2).take 1) ++
        .asked 0 ⟨"src/./A.java"⟩ s t :: [] ∧
    m.Marks 0 ∧ s.workspace.files.id? ⟨"src/./A.java"⟩ = some 0 ∧
    s.cache.tree? 0 = some "src/A.java" ∧ s.tree.readText ⟨"src/./A.java"⟩ = .ok "a" ∧
    ∀ e ∈ (respelled.drop 2).take 1, ¬ e.Edits ⟨"src/./A.java"⟩ := by
  have hquiet : ∀ e ∈ (respelled.drop 2).take 1, e.before.tree.readText ⟨"src/./A.java"⟩ =
      e.after.tree.readText ⟨"src/./A.java"⟩ := by decide +kernel
  refine ⟨_, _, _, rfl, .inl ⟨⟨"src/A.java"⟩, rfl, rfl⟩, ?_, ?_, ?_, fun e he => ?_⟩
  · decide +kernel
  · decide +kernel
  · decide +kernel
  · exact not_not_intro (hquiet e he)

/-- The tree that is kept of a file is given under all spellings of its path, though the parser may
tell them apart. -/
theorem tree_of_other_spelling : ∃ before s t,
    respelled = before ++ .asked 0 ⟨"src/./A.java"⟩ s t :: [] ∧
      Reported 0 ⟨"src/./A.java"⟩ before ∧
      s.workspace.files.id? ⟨"src/./A.java"⟩ = some 0 ∧
      (s.syntaxTree (fun path _ => some path.text) 0 ⟨"src/./A.java"⟩).1.tree? =
        some "src/A.java" ∧
      (s.tree.readText ⟨"src/./A.java"⟩).toOption.bind (fun _ => some "src/./A.java") =
        some "src/./A.java" := by
  obtain ⟨m, s, t, hsplit, hmarks, hnumber, hkept, hread, hquiet⟩ := respelled_runs
  refine ⟨_, s, t, hsplit, .of_report (.inl hmarks) hquiet, hnumber, ?_, ?_⟩
  · unfold Session.syntaxTree
    rw [hkept]
    rfl
  · rw [hread]
    rfl

end Rebuild.Build
