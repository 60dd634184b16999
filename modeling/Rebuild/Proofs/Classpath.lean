import Mathlib
import Rebuild.Classpath
import Rebuild.Proofs.Declaration.Search

/-! Class paths as finders of artifacts. Main statement: as long as the tree of files stays the
same, a class path without repetitions finds what the first of its entries with the class has,
whichever archives were opened before, and what it finds is within the volume that it tells. -/
namespace Rebuild

open Artifact (ClassFile)

/-! ## What can be read -/

/-- All that can be read for a class: the bytes of a file, or those of the members of an archive. -/
def Content.parts : Content → List (List UInt8)
  | bytes data => [data]
  | archive members _ => members.map Prod.snd

def Entry.parts : Entry → List (List UInt8)
  | directory _ => []
  | file content _ => content.parts

/-- The members of an archive that was opened. -/
def Snapshot.parts (snapshot : Snapshot) : List (List UInt8) := (snapshot.getD []).map Prod.snd

theorem Content.sum_parts (content : Content) :
    (content.parts.map List.length).sum = content.volume := by
  cases content with
  | bytes data => exact Nat.add_zero _
  | archive members compressed =>
    rw [parts, List.map_map]
    rfl

theorem sum_flatMap_length {α : Type} (parts : α → List (List UInt8)) (l : List α) :
    ((l.flatMap parts).map List.length).sum =
      (l.map fun a => ((parts a).map List.length).sum).sum := by
  rw [List.flatMap_def, List.map_flatten, List.sum_flatten, List.map_map, List.map_map]
  rfl

theorem FileTree.sum_parts (t : FileTree) :
    ((t.entries.values.flatMap Entry.parts).map List.length).sum = t.volume := by
  rw [sum_flatMap_length]
  refine congrArg List.sum (List.map_congr_left fun entry _ => ?_)
  cases entry with
  | directory modified => rfl
  | file content modified => exact content.sum_parts

theorem FileTree.mem_values_of_lookup {t : FileTree} {p : Path} {content : Content}
    {modified : Moment} (h : t.lookup p = .ok (.file content modified)) :
    .file content modified ∈ t.entries.values := by
  unfold lookup at h
  cases hplace : t.resolve p with
  | error fault => simp [hplace, bind, Except.bind] at h
  | ok place =>
    have hentry : t.entry? place = some (.file content modified) := by
      cases hentry : t.entry? place <;> simp_all [bind, Except.bind, throw, throwThe,
        MonadExceptOf.throw, pure, Except.pure]
    unfold entry? at hentry
    split at hentry
    · simp at hentry
    · exact Dict.mem_values_of_get? hentry

/-- The bytes of a file are those of its content, but of an archive only a mark is read. -/
theorem FileTree.mem_parts_of_read {t : FileTree} {p : Path} {bytes : List UInt8}
    (h : t.read p = .ok bytes) :
    bytes ∈ t.entries.values.flatMap Entry.parts ∨ bytes = [0x50, 0x4B] := by
  unfold read content at h
  cases hlookup : t.lookup p with
  | error fault => simp [hlookup, bind, Except.bind] at h
  | ok entry =>
    cases entry with
    | directory modified => simp [hlookup, bind, Except.bind, throw, throwThe,
        MonadExceptOf.throw] at h
    | file content modified =>
      obtain rfl : content.data = bytes := by
        simpa [hlookup, bind, Except.bind, pure, Except.pure] using h
      cases content with
      | bytes data =>
        exact .inl (List.mem_flatMap.mpr ⟨_, mem_values_of_lookup hlookup,
          List.mem_singleton_self data⟩)
      | archive members compressed => exact .inr rfl

theorem FileTree.mem_parts_of_snapshot {t : FileTree} {p : Path} {members : Snapshot}
    {bytes : List UInt8} (h : t.snapshot p = .ok members) (hbytes : bytes ∈ members.parts) :
    bytes ∈ t.entries.values.flatMap Entry.parts := by
  unfold snapshot at h
  split at h
  next members compressed modified hlookup =>
    cases h
    exact List.mem_flatMap.mpr ⟨_, mem_values_of_lookup hlookup, hbytes⟩
  all_goals cases h
  all_goals cases hbytes

/-- A finder in some of its states, which looking for artifacts does not leave. -/
def Finder.restrict {φ : Type} (source : Finder φ) (P : φ → Prop)
    (h : ∀ s, P s → ∀ internal, P (source.find internal s).2) : Finder { s // P s } where
  find internal s := ((source.find internal s.1).1, ⟨(source.find internal s.1).2, h s.1 s.2 _⟩)
  volume s := source.volume s.1

namespace Classpath

variable {t : FileTree} {c c' : Classpath}

theorem sum_parts (c : Classpath) :
    ((c.archives.values.flatMap Snapshot.parts).map List.length).sum = c.volume := by
  rw [sum_flatMap_length]
  refine congrArg List.sum (List.map_congr_left fun snapshot _ => ?_)
  cases snapshot with
  | none => rfl
  | some members =>
    rw [Snapshot.parts, Option.getD_some, List.map_map]
    rfl

/-! ## Looking for classes -/

/-- The members that a look into an archive sees: those that it had when it was opened, or has. -/
def seen (t : FileTree) (c : Classpath) (p : Path) : Snapshot :=
  (c.archives.get? p.components).getD (t.snapshot p).toOption.join

/-- What an entry of a class path has of a class. -/
def lookIn (t : FileTree) (c : Classpath) (internal : String) :
    ClasspathEntry → Option (List UInt8)
  | .directory dir => findInDirectory t dir internal
  | .archive p => findInSnapshot (c.seen t p) internal

theorem findInEntry_fst (entry : ClasspathEntry) (internal : String) :
    (c.findInEntry t entry internal).1 = c.lookIn t internal entry := by
  cases entry with
  | directory dir => rfl
  | archive p =>
    rw [findInEntry, findInArchive, lookIn, seen]
    cases c.archives.get? p.components with
    | some snapshot => rfl
    | none => cases t.snapshot p <;> rfl

/-- Archives of the class path that go by the same path would be opened alike. -/
def Consistent (t : FileTree) (c : Classpath) : Prop :=
  ∀ p q, .archive p ∈ c.entries → .archive q ∈ c.entries → p.components = q.components →
    t.snapshot p = t.snapshot q

/-- A class path that has looked for more: the entries are the same, and so is what is seen in
them. -/
structure Extends (t : FileTree) (c c' : Classpath) : Prop where
  entries : c'.entries = c.entries
  seen : ∀ p, .archive p ∈ c.entries → c'.seen t p = c.seen t p

namespace Extends

theorem refl (c : Classpath) : Extends t c c := ⟨rfl, fun _ _ => rfl⟩

theorem trans {c'' : Classpath} (h : Extends t c c') (h' : Extends t c' c'') : Extends t c c'' :=
  ⟨h'.entries.trans h.entries, fun p hp => (h'.seen p (h.entries ▸ hp)).trans (h.seen p hp)⟩

theorem consistent (h : Extends t c c') (hc : c.Consistent t) : c'.Consistent t := by
  rw [Consistent, h.entries]
  exact hc

theorem lookIn (h : Extends t c c') (internal : String) {entry : ClasspathEntry}
    (hentry : entry ∈ c.entries) : c'.lookIn t internal entry = c.lookIn t internal entry := by
  cases entry with
  | directory dir => rfl
  | archive p => rw [Classpath.lookIn, Classpath.lookIn, h.seen p hentry]

end Extends

/-- An archive that is opened is seen as it would have been opened later. -/
theorem findInEntry_extends (hc : c.Consistent t) {entry : ClasspathEntry}
    (hentry : entry ∈ c.entries) (internal : String) :
    Extends t c (c.findInEntry t entry internal).2 := by
  cases entry with
  | directory dir => exact .refl c
  | archive p =>
    rw [findInEntry, findInArchive]
    cases hknown : c.archives.get? p.components with
    | some snapshot => exact .refl c
    | none =>
      cases hopened : t.snapshot p with
      | error fault => exact .refl c
      | ok snapshot =>
        refine ⟨rfl, fun q hq => ?_⟩
        by_cases hsame : p.components = q.components
        · simp [seen, ← hsame, hknown, ← hc p q hentry hq hsame, hopened, Except.toOption]
        · simp [seen, hsame]

/-- Whatever it has looked for before, the first entry that has the class answers. -/
theorem findIn_eq (hc : c.Consistent t) (h : Extends t c c') (internal : String)
    {entries : List ClasspathEntry} (hentries : entries ⊆ c.entries) :
    (findIn t internal entries c').1 = entries.findSome? (c.lookIn t internal) ∧
      Extends t c (findIn t internal entries c').2 := by
  induction entries generalizing c' with
  | nil => exact ⟨rfl, h⟩
  | cons entry rest ih =>
    have hentry : entry ∈ c.entries := hentries (List.mem_cons_self ..)
    have hfound := (findInEntry_fst entry internal).trans (h.lookIn internal hentry)
    have hmore := h.trans (findInEntry_extends (h.consistent hc) (h.entries ▸ hentry) internal)
    rcases hlook : c'.findInEntry t entry internal with ⟨found, c''⟩
    rw [hlook] at hfound hmore
    rw [findIn, hlook, List.findSome?_cons, ← hfound]
    cases found with
    | some bytes => exact ⟨rfl, hmore⟩
    | none => exact ih hmore fun e he => hentries (List.mem_cons_of_mem _ he)

theorem find_eq (hc : c.Consistent t) (h : Extends t c c') (internal : String) :
    (c'.find t internal).1 = c.entries.findSome? (c.lookIn t internal) ∧
      Extends t c (c'.find t internal).2 := by
  rw [find, h.entries]
  exact findIn_eq hc h internal fun _ he => he

/-- What is found was read from the tree, or from an archive when it was opened. Of an archive that
is read as a file only its mark is found. -/
theorem mem_parts_of_lookIn {internal : String} {entry : ClasspathEntry} {bytes : List UInt8}
    (h : c.lookIn t internal entry = some bytes) :
    bytes ∈ t.entries.values.flatMap Entry.parts ++ c.archives.values.flatMap Snapshot.parts ∨
      bytes = [0x50, 0x4B] := by
  rw [List.mem_append]
  cases entry with
  | directory dir =>
    rw [lookIn, findInDirectory] at h
    cases hread : t.read (dir.join ⟨artifactName internal⟩) with
    | error fault => simp [hread, Except.toOption] at h
    | ok found =>
      obtain rfl : found = bytes := by simpa [hread, Except.toOption] using h
      exact (FileTree.mem_parts_of_read hread).imp_left .inl
  | archive p =>
    obtain ⟨members, hmembers, hfound⟩ := Option.bind_eq_some_iff.mp h
    have hbytes : bytes ∈ Snapshot.parts (some members) := by
      obtain ⟨before, after, hsplit, -⟩ := List.lookup_eq_some_iff.mp hfound
      have hmem : (artifactName internal, bytes) ∈ members.reverse := by simp [hsplit]
      exact List.mem_map.mpr ⟨_, List.mem_reverse.mp hmem, rfl⟩
    rw [← hmembers, seen] at hbytes
    cases hknown : c.archives.get? p.components with
    | some opened =>
      rw [hknown] at hbytes
      have hopened : opened ∈ c.archives.values := Dict.mem_values_of_get? hknown
      exact .inl (.inr (List.mem_flatMap.mpr ⟨opened, hopened, hbytes⟩))
    | none =>
      cases hopened : t.snapshot p with
      | error fault => simp [hknown, hopened, Except.toOption, Snapshot.parts] at hbytes
      | ok opened =>
        have hbytes : bytes ∈ opened.parts := by
          simpa [hknown, hopened, Except.toOption] using hbytes
        exact .inl (.inl (FileTree.mem_parts_of_snapshot hopened hbytes))

/-! ## Finders -/

/-- Whatever a consistent class path has looked for, it finds the same; and the artifacts that it
finds have no more bytes than it tells. -/
theorem finder_regular (t : FileTree) : ((finder t).restrict (Consistent t)
    fun c hc internal => (find_eq hc (.refl c) internal).2.consistent hc).Regular where
  steady := by
    intro ⟨c, hc⟩ a b
    have hextends := (find_eq hc (.refl c) a).2
    exact (find_eq hc hextends b).1.trans (find_eq hc (.refl c) b).1.symm
  counted := by
    intro ⟨c, hc⟩
    refine ⟨t.entries.values.flatMap Entry.parts ++ c.archives.values.flatMap Snapshot.parts,
      ?_, fun binary file hfile => ?_⟩
    · rw [List.map_append, List.sum_append, FileTree.sum_parts, sum_parts]
      rfl
    · obtain ⟨bytes, hfound, hdecode⟩ := Finder.exists_of_classFile? hfile
      refine ⟨bytes, ?_, hdecode⟩
      have hfirst := (find_eq hc (.refl c) (Name.toInternal binary)).1
      obtain ⟨entry, -, hentry⟩ := List.exists_of_findSome?_eq_some (hfirst.symm.trans hfound)
      refine (mem_parts_of_lookIn hentry).resolve_right ?_
      -- An archive that is read as a file cannot be decoded.
      rintro rfl
      cases hdecode

theorem not_mem_taken {taken : List (List Component)} {l : List ClasspathEntry}
    {entry : ClasspathEntry} (h : entry ∈ ClasspathEntry.dedup taken l) :
    entry.path.components ∉ taken := by
  induction l generalizing taken with
  | nil => cases h
  | cons first rest ih =>
    rw [ClasspathEntry.dedup] at h
    split at h
    · exact ih h
    next hnew =>
      rcases List.mem_cons.mp h with rfl | h
      · exact hnew
      · exact fun hmem => ih h (List.mem_cons_of_mem _ hmem)

/-- Without repetitions no two entries have the same path. -/
theorem eq_of_mem_dedup {taken : List (List Component)} {l : List ClasspathEntry}
    {entry other : ClasspathEntry} (hentry : entry ∈ ClasspathEntry.dedup taken l)
    (hother : other ∈ ClasspathEntry.dedup taken l)
    (hsame : entry.path.components = other.path.components) : entry = other := by
  induction l generalizing taken with
  | nil => cases hentry
  | cons first rest ih =>
    rw [ClasspathEntry.dedup] at hentry hother
    by_cases hfirst : first.path.components ∈ taken
    · rw [if_pos hfirst] at hentry hother
      exact ih hentry hother
    · rw [if_neg hfirst] at hentry hother
      have hrest {e : ClasspathEntry}
          (he : e ∈ ClasspathEntry.dedup (first.path.components :: taken) rest) :
          e.path.components ≠ first.path.components :=
        (not_or.mp (mt List.mem_cons.mpr (not_mem_taken he))).1
      rcases List.mem_cons.mp hentry with rfl | hentry <;>
        rcases List.mem_cons.mp hother with rfl | hother
      · rfl
      · exact absurd hsame.symm (hrest hother)
      · exact absurd hsame (hrest hentry)
      · exact ih hentry hother

/-- The class paths of projects are consistent whatever the tree is. -/
theorem consistent_dedup (t : FileTree) (l : List ClasspathEntry)
    (archives : Dict (List Component) Snapshot) :
    Consistent t { entries := ClasspathEntry.dedup [] l, archives } := by
  intro p q hp hq hsame
  have heq : ClasspathEntry.archive p = .archive q := eq_of_mem_dedup hp hq hsame
  rw [ClasspathEntry.archive.inj heq]

end Classpath

end Rebuild
