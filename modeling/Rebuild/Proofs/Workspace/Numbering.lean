import Mathlib
import Rebuild.Proofs.Path
import Rebuild.Proofs.Workspace.Growth

/-! The numbers of paths over any sequence of calls. Two spellings get one number just when their
components are equal, numbers are given densely in the order in which paths first appear, and what
is found at a number is the spelling that came first. Main statement: all of this holds of a
registry that keeps a table of numbers of 32 bits beside its list of paths, as long as these numbers
suffice. -/
namespace Rebuild.Workspace.FileRegistry

/-! ## Calls -/

/-- A path is to have a number, or the number of a path is asked for, or the path at a number. -/
inductive Call where
  | register (p : Path)
  | number (p : Path)
  | spelling (id : UInt32)

/-- A call and its answer. -/
inductive Entry where
  | registered (p : Path) (file : FileId)
  | numbered (p : Path) (file? : Option FileId)
  | spelled (id : UInt32) (path? : Option Path)

/-- The path that a call gives a number. -/
def Call.path? : Call → Option Path
  | .register p => some p
  | .number _ | .spelling _ => none

/-- The number that was given. -/
def Entry.given? : Entry → Option (Path × FileId)
  | .registered p file => some (p, file)
  | .numbered _ _ | .spelled _ _ => none

/-- The numbers given by a log. -/
def given (log : List Entry) : List (Path × FileId) := log.filterMap Entry.given?

section Runs

variable {State : Type} (step : State → Call → Entry × State)

/-- What calls one after the other are answered. -/
def log : State → List Call → List Entry
  | _, [] => []
  | s, c :: calls => (step s c).1 :: log (step s c).2 calls

/-- The state behind these calls. -/
def after (s : State) (calls : List Call) : State := calls.foldl (fun s c => (step s c).2) s

variable {step}

/-- What stands in a log was answered in the state behind the calls before. -/
theorem of_log_eq {s : State} {calls : List Call} {before behind : List Entry} {e : Entry}
    (h : log step s calls = before ++ e :: behind) : ∃ done c rest,
      calls = done ++ c :: rest ∧ log step s done = before ∧ e = (step (after step s done) c).1 := by
  induction before generalizing s calls with
  | nil =>
    cases calls with
    | nil => cases h
    | cons c calls =>
      cases h
      exact ⟨[], c, calls, rfl, rfl, rfl⟩
  | cons first before ih =>
    cases calls with
    | nil => cases h
    | cons c calls =>
      injection h with hfirst hrest
      obtain ⟨done, c', rest, rfl, hlog, he⟩ := ih hrest
      exact ⟨c :: done, c', rest, rfl, by rw [log, hfirst, hlog], he⟩

/-- Calls that change nothing may be left out. -/
theorem after_filter {keep : Call → Bool} (h : ∀ s c, keep c = false → (step s c).2 = s) (s : State)
    (calls : List Call) : after step s (calls.filter keep) = after step s calls := by
  induction calls generalizing s with
  | nil => rfl
  | cons c calls ih =>
    cases hkeep : keep c with
    | true =>
      rw [List.filter_cons_of_pos hkeep]
      exact ih _
    | false =>
      rw [List.filter_cons_of_neg (by simp [hkeep]), ih]
      show _ = after step (step s c).2 calls
      rw [h s c hkeep]

end Runs

def call (r : FileRegistry) : Call → Entry × FileRegistry
  | .register p => (.registered p (r.register p).1, (r.register p).2)
  | .number p => (.numbered p (r.id? p), r)
  | .spelling id => (.spelled id (r.path? id.toNat), r)

/-! ## One spelling for a number -/

variable {r : FileRegistry} {p q : Path} {file : FileId}

/-- No path is there twice, in whatever spelling. -/
def Distinct (r : FileRegistry) : Prop := (r.paths.map Path.components).Nodup

theorem Distinct.id?_eq_some_iff (h : r.Distinct) :
    r.id? p = some file ↔ ∃ q, r.path? file = some q ∧ q.components = p.components := by
  unfold id? path?
  rw [List.findIdx?_eq_some_iff_getElem]
  constructor
  · rintro ⟨hlt, hsame, -⟩
    exact ⟨r.paths[file], List.getElem?_eq_getElem hlt, of_decide_eq_true hsame⟩
  · rintro ⟨q, hpath, hsame⟩
    obtain ⟨hlt, rfl⟩ := List.getElem?_eq_some_iff.mp hpath
    refine ⟨hlt, decide_eq_true hsame, fun earlier hearlier => ?_⟩
    rw [decide_eq_true_eq]
    intro hsame'
    have hpairs := List.pairwise_iff_getElem.mp h earlier file (by simp; omega) (by simpa) hearlier
    rw [List.getElem_map, List.getElem_map] at hpairs
    exact hpairs (hsame'.trans hsame.symm)

theorem id?_eq_none_iff : r.id? p = none ↔ p.components ∉ r.paths.map Path.components := by
  unfold id?
  rw [List.findIdx?_eq_none_iff]
  simp

theorem register_of_known (h : r.id? p = some file) : r.register p = (file, r) := by
  unfold register
  rw [h]

theorem register_of_new (h : r.id? p = none) :
    r.register p = (r.paths.length, ⟨r.paths ++ [p]⟩) := by
  unfold register
  rw [h]

/-- All spellings of a path have its number, and those of other paths keep theirs. -/
theorem id?_register_eq (r : FileRegistry) (p q : Path) : (r.register p).2.id? q =
    (r.id? q).or (if p.components = q.components then some (r.register p).1 else none) := by
  cases hq : r.id? q with
  | some file => exact id?_of_prefix (r.paths_register p) hq
  | none =>
    rw [Option.none_or]
    split_ifs with hsame
    · rw [← r.id?_register p]
      unfold id?
      rw [hsame]
    · cases hp : r.id? p with
      | some file =>
        rw [register_of_known hp]
        exact hq
      | none =>
        rw [register_of_new hp, id?_eq_none_iff, List.map_append, List.mem_append, not_or]
        exact ⟨id?_eq_none_iff.mp hq, by simpa using Ne.symm hsame⟩

/-- A spelling is added only where there was none. -/
theorem path?_register_eq (r : FileRegistry) (p : Path) (file : FileId) :
    (r.register p).2.path? file =
      (r.path? file).or (if (r.register p).1 = file then some p else none) := by
  cases hp : r.id? p with
  | some known =>
    rw [register_of_known hp]
    split_ifs with hfile
    · obtain ⟨path, hpath⟩ := path?_of_id? hp
      subst hfile
      rw [hpath]
      rfl
    · rw [Option.or_none]
  | none =>
    rw [register_of_new hp]
    unfold path?
    rcases lt_trichotomy file r.paths.length with hlt | rfl | hgt
    · rw [List.getElem?_append_left hlt, List.getElem?_eq_getElem hlt, Option.some_or]
    · simp
    · have hbeyond : (r.paths ++ [p])[file]? = none := by
        rw [List.getElem?_eq_none_iff, List.length_append, List.length_singleton]
        exact hgt
      rw [hbeyond, List.getElem?_eq_none hgt.le, if_neg hgt.ne]
      rfl

theorem Distinct.register (h : r.Distinct) (p : Path) : (r.register p).2.Distinct := by
  cases hid : r.id? p with
  | some file =>
    rw [register_of_known hid]
    exact h
  | none =>
    rw [register_of_new hid, Distinct, List.map_append]
    refine h.append (List.nodup_singleton _) ?_
    rw [List.map_singleton, List.disjoint_singleton]
    exact id?_eq_none_iff.mp hid

theorem length_call (r : FileRegistry) (c : Call) :
    (r.call c).2.paths.length ≤ r.paths.length + c.path?.toList.length := by
  cases c with
  | register p =>
    show (r.register p).2.paths.length ≤ r.paths.length + 1
    cases hid : r.id? p with
    | some file =>
      rw [register_of_known hid]
      exact Nat.le_succ _
    | none =>
      rw [register_of_new hid, List.length_append]
      exact le_rfl
  | number p => exact le_rfl
  | spelling id => exact le_rfl

/-! ## What was given -/

/-- A registry holds the numbers given so far, and nothing else. -/
structure Holds (r : FileRegistry) (given : List (Path × FileId)) : Prop where
  distinct : r.Distinct
  kept : ∀ p file, (p, file) ∈ given → r.id? p = some file
  id?_eq : ∀ p, r.id? p = (given.find? (·.1.components = p.components)).map Prod.snd
  path?_eq : ∀ file, r.path? file = (given.find? (·.2 = file)).map Prod.fst

namespace Holds

variable {given : List (Path × FileId)}

theorem nil : Holds {} [] where
  distinct := List.nodup_nil
  kept := nofun
  id?_eq _ := rfl
  path?_eq _ := rfl

theorem register (h : r.Holds given) (p : Path) :
    (r.register p).2.Holds (given ++ [(p, (r.register p).1)]) where
  distinct := h.distinct.register p
  kept q file hmem := by
    rcases List.mem_append.mp hmem with hmem | hmem
    · exact id?_of_prefix (r.paths_register p) (h.kept q file hmem)
    · cases List.mem_singleton.mp hmem
      exact r.id?_register p
  -- A search comes to the new entry only where it found nothing before, as the registry does.
  id?_eq q := by
    rw [id?_register_eq, h.id?_eq, List.find?_append, Option.map_or, List.find?_singleton]
    split_ifs <;> simp_all
  path?_eq file := by
    rw [path?_register_eq, h.path?_eq, List.find?_append, Option.map_or, List.find?_singleton]
    split_ifs <;> simp_all

/-- There are as many numbers as paths, their spellings not counted. -/
theorem size_eq (h : r.Holds given) :
    r.size = (given.map fun e => e.1.components).toFinset.card := by
  have hsame : (given.map fun e => e.1.components).toFinset =
      (r.paths.map Path.components).toFinset := by
    ext c
    simp only [List.mem_toFinset, List.mem_map]
    constructor
    · rintro ⟨⟨p, file⟩, hmem, rfl⟩
      obtain ⟨q, hpath, hsame⟩ := h.distinct.id?_eq_some_iff.mp (h.kept p file hmem)
      exact ⟨q, List.mem_of_getElem? hpath, hsame⟩
    · rintro ⟨q, hmem, rfl⟩
      obtain ⟨file, hpath⟩ := List.getElem?_of_mem hmem
      obtain ⟨e, hfound, rfl⟩ := Option.map_eq_some_iff.mp ((h.path?_eq file).symm.trans hpath)
      exact ⟨e, List.mem_of_find?_eq_some hfound, rfl⟩
  rw [hsame, List.toFinset_card_of_nodup h.distinct, List.length_map]
  rfl

/-- The numbers of two paths are the same just when one is another spelling of the other. -/
theorem same_iff (h : r.Holds given) {a b : FileId} (hp : (p, a) ∈ given) (hq : (q, b) ∈ given) :
    a = b ↔ p.components = q.components := by
  have hp' := h.kept p a hp
  have hq' := h.kept q b hq
  constructor
  · rintro rfl
    obtain ⟨path, hpath, hsame⟩ := h.distinct.id?_eq_some_iff.mp hp'
    obtain ⟨path', hpath', hsame'⟩ := h.distinct.id?_eq_some_iff.mp hq'
    cases hpath.symm.trans hpath'
    exact hsame.symm.trans hsame'
  · intro hsame
    have hid : r.id? p = r.id? q := by
      unfold id?
      rw [hsame]
    exact Option.some.inj (hp'.symm.trans (hid.trans hq'))

/-- A path that has no number gets the next one. -/
theorem register_new (h : r.Holds given) (hnew : ∀ e ∈ given, e.1.components ≠ p.components) :
    (r.register p).1 = (given.map fun e => e.1.components).toFinset.card := by
  have hid : r.id? p = none := by
    rw [h.id?_eq, Option.map_eq_none_iff, List.find?_eq_none]
    simpa using hnew
  rw [register_of_new hid]
  exact h.size_eq

theorem step (h : r.Holds given) (c : Call) :
    (r.call c).2.Holds (given ++ ((r.call c).1.given?).toList) := by
  cases c with
  | register p => exact h.register p
  | number p =>
    show r.Holds (given ++ [])
    rwa [List.append_nil]
  | spelling id =>
    show r.Holds (given ++ [])
    rwa [List.append_nil]

end Holds

theorem given_cons (e : Entry) (rest : List Entry) :
    given (e :: rest) = e.given?.toList ++ given rest := by
  cases e <;> rfl

theorem Holds.run {known : List (Path × FileId)} (h : r.Holds known) (calls : List Call) :
    (after call r calls).Holds (known ++ given (log call r calls)) := by
  induction calls generalizing r known with
  | nil =>
    show r.Holds (known ++ [])
    rwa [List.append_nil]
  | cons c calls ih =>
    rw [log, given_cons, ← List.append_assoc]
    exact ih (h.step c)

theorem map_fst_given (r : FileRegistry) (calls : List Call) :
    (given (log call r calls)).map Prod.fst = calls.filterMap Call.path? := by
  induction calls generalizing r with
  | nil => rfl
  | cons c calls ih =>
    rw [log, given_cons, List.map_append, ih]
    cases c <;> rfl

/-! ## Logs -/

/-- What a log shows of the numbers of paths. The spellings of a path, and no others, share a number
whenever they are given it; a new path gets the number of the paths before it; and questions are
answered with what was given first. -/
structure Numbering (log : List Entry) : Prop where
  same_iff : ∀ p a q b, (p, a) ∈ given log → (q, b) ∈ given log →
    (a = b ↔ p.components = q.components)
  dense : ∀ before p file behind, log = before ++ .registered p file :: behind →
    (∀ e ∈ given before, e.1.components ≠ p.components) →
    file = ((given before).map fun e => e.1.components).toFinset.card
  number : ∀ before p file? behind, log = before ++ .numbered p file? :: behind →
    file? = ((given before).find? (·.1.components = p.components)).map Prod.snd
  spelling : ∀ before id path? behind, log = before ++ .spelled id path? :: behind →
    path? = ((given before).find? (·.2 = id.toNat)).map Prod.fst

theorem numbering_log (calls : List Call) : Numbering (log call {} calls) := by
  have hholds (calls : List Call) :
      (after call {} calls).Holds (given (log call {} calls)) := Holds.nil.run calls
  refine ⟨fun p a q b hp hq => (hholds calls).same_iff hp hq, ?_, ?_, ?_⟩
  · intro before p file behind hlog hnew
    obtain ⟨done, c, rest, -, rfl, he⟩ := of_log_eq hlog
    cases c <;> cases he
    exact (hholds done).register_new hnew
  · intro before p file? behind hlog
    obtain ⟨done, c, rest, -, rfl, he⟩ := of_log_eq hlog
    cases c <;> cases he
    exact (hholds done).id?_eq p
  · intro before id path? behind hlog
    obtain ⟨done, c, rest, -, rfl, he⟩ := of_log_eq hlog
    cases c <;> cases he
    exact (hholds done).path?_eq id.toNat

/-! ## Numbers of 32 bits -/

/-- A registry as two tables: the numbers by components, and the spellings by number. -/
structure Tables where
  numbers : Dict (List Component) UInt32 := .empty
  paths : List Path := []

namespace Tables

def number? (t : Tables) (p : Path) : Option UInt32 := t.numbers.get? p.components

def path? (t : Tables) (id : UInt32) : Option Path := t.paths[id.toNat]?

/-- A new number is what 32 bits hold of how many paths there are. -/
def register (t : Tables) (p : Path) : UInt32 × Tables :=
  match t.number? p with
  | some id => (id, t)
  | none =>
    let id := UInt32.ofNat t.paths.length
    (id, { numbers := t.numbers.put p.components id, paths := t.paths ++ [p] })

def call (t : Tables) : Call → Entry × Tables
  | .register p => (.registered p (t.register p).1.toNat, (t.register p).2)
  | .number p => (.numbered p ((t.number? p).map UInt32.toNat), t)
  | .spelling id => (.spelled id (t.path? id), t)

/-- The two tables stand for a registry. -/
structure Agrees (t : Tables) (r : FileRegistry) : Prop where
  paths_eq : t.paths = r.paths
  number?_eq : ∀ p, (t.number? p).map UInt32.toNat = r.id? p

namespace Agrees

variable {t : Tables}

theorem nil : Agrees {} {} := ⟨rfl, fun _ => rfl⟩

/-- As long as 32 bits suffice, the same numbers are given. -/
theorem register (h : t.Agrees r) (hfits : r.paths.length < 2 ^ 32) (p : Path) :
    (t.register p).1.toNat = (r.register p).1 ∧ (t.register p).2.Agrees (r.register p).2 := by
  have hnumber := h.number?_eq p
  cases hid : t.number? p with
  | some id =>
    rw [hid] at hnumber
    rw [register_of_known hnumber.symm, Tables.register, hid]
    exact ⟨rfl, h⟩
  | none =>
    rw [hid] at hnumber
    have hregister := register_of_new hnumber.symm
    have hnew : (UInt32.ofNat r.paths.length).toNat = (r.register p).1 := by
      rw [hregister]
      exact UInt32.toNat_ofNat_of_lt' hfits
    rw [Tables.register, hid, h.paths_eq]
    refine ⟨hnew, by rw [hregister], fun q => ?_⟩
    rw [id?_register_eq, ← h.number?_eq q]
    simp only [Tables.number?, Dict.get?_put] at hid ⊢
    split_ifs with hsame
    · rw [← hsame, hid, Option.map_some, hnew, Option.map_none, Option.none_or]
    · rw [Option.or_none]

theorem step (h : t.Agrees r) (c : Call)
    (hfits : r.paths.length + c.path?.toList.length ≤ 2 ^ 32) :
    (t.call c).1 = (r.call c).1 ∧ (t.call c).2.Agrees (r.call c).2 := by
  cases c with
  | register p =>
    obtain ⟨hid, hagrees⟩ := h.register hfits p
    exact ⟨congrArg (Entry.registered p) hid, hagrees⟩
  | number p => exact ⟨congrArg (Entry.numbered p) (h.number?_eq p), h⟩
  | spelling id =>
    refine ⟨congrArg (Entry.spelled id) ?_, h⟩
    rw [Tables.path?, h.paths_eq]
    rfl

theorem run (h : t.Agrees r) (calls : List Call)
    (hfits : r.paths.length + (calls.filterMap Call.path?).length ≤ 2 ^ 32) :
    log Tables.call t calls = log FileRegistry.call r calls ∧
      (after Tables.call t calls).Agrees (after FileRegistry.call r calls) := by
  induction calls generalizing t r with
  | nil => exact ⟨rfl, h⟩
  | cons c calls ih =>
    have hlength : ((c :: calls).filterMap Call.path?).length =
        c.path?.toList.length + (calls.filterMap Call.path?).length := by
      cases hpath : c.path? with
      | none => rw [List.filterMap_cons_none hpath, Option.toList_none, List.length_nil, Nat.zero_add]
      | some p =>
        rw [List.filterMap_cons_some hpath, List.length_cons, Option.toList_some,
          List.length_singleton, Nat.add_comm]
    have hstep := length_call r c
    obtain ⟨hentry, hagrees⟩ := h.step c (by omega)
    obtain ⟨hlog, hafter⟩ := ih hagrees (by omega)
    exact ⟨by rw [log, log, hentry, hlog], hafter⟩

end Agrees

end Tables

/-- Asking for the path at a number undoes asking for the number of a path, up to the spelling, and
the other way round. -/
def MutuallyInverse {Id : Type} (number? : Path → Option Id) (path? : Id → Option Path) : Prop :=
  ∀ p id, number? p = some id ↔ ∃ q, path? id = some q ∧ q.components = p.components

theorem Tables.Agrees.mutuallyInverse {t : Tables} (h : t.Agrees r) (hr : r.Distinct) :
    MutuallyInverse t.number? t.path? := by
  intro p id
  have hpath : t.path? id = r.path? id.toNat := by
    rw [Tables.path?, h.paths_eq]
    rfl
  rw [hpath, ← hr.id?_eq_some_iff, ← h.number?_eq, Option.map_eq_some_iff]
  constructor
  · intro hid
    exact ⟨id, hid, rfl⟩
  · rintro ⟨id', hid, heq⟩
    rwa [← UInt32.toNat_inj.mp heq]

/-- However calls are mixed, fewer than 2³² of them that give numbers: two paths get the same number
just when they are spellings of one path, numbers are given densely from zero in the order of first
appearance, and the path at a number is its first spelling. A table of numbers of 32 bits beside the
list of paths answers the same, each of the two undoing the other, and only the calls that give
numbers leave anything behind. Spellings differ in slashes that are repeated or stand at the end,
and in dots behind a slash. -/
theorem paths_numbered (calls : List Call) (h : (calls.filterMap Call.path?).length < 2 ^ 32) :
    Numbering (log call {} calls) ∧
    log Tables.call {} calls = log call {} calls ∧
    MutuallyInverse (after call {} calls).id? (after call {} calls).path? ∧
    MutuallyInverse (after Tables.call {} calls).number? (after Tables.call {} calls).path? ∧
    after Tables.call {} (calls.filter fun c => c.path?.isSome) = after Tables.call {} calls ∧
    (after call {} calls).size = ((calls.filterMap Call.path?).map Path.components).toFinset.card ∧
    (∀ p q : Path, p.components = q.components ↔ p.lead ++ p.steps = q.lead ++ q.steps) ∧
    ∀ a b : String,
      (⟨a ++ "//" ++ b⟩ : Path).components = (⟨a ++ "/" ++ b⟩ : Path).components ∧
      (⟨a ++ "/./" ++ b⟩ : Path).components = (⟨a ++ "/" ++ b⟩ : Path).components ∧
      (a ≠ "" → (⟨a ++ "/"⟩ : Path).components = (⟨a⟩ : Path).components ∧
        (⟨a ++ "/."⟩ : Path).components = (⟨a⟩ : Path).components) := by
  have hholds : (after call {} calls).Holds (given (log call {} calls)) := Holds.nil.run calls
  have hfits : (FileRegistry.mk []).paths.length + (calls.filterMap Call.path?).length ≤ 2 ^ 32 := by
    simpa using h.le
  obtain ⟨hlog, hagrees⟩ := Tables.Agrees.nil.run calls hfits
  refine ⟨numbering_log calls, hlog, fun p file => hholds.distinct.id?_eq_some_iff,
    hagrees.mutuallyInverse hholds.distinct, after_filter ?_ _ calls, ?_,
    fun p q => by rw [Path.components_eq_iff, Path.words_eq, Path.words_eq],
    Path.components_respelled⟩
  · intro t c hkeep
    cases c with
    | register p => cases hkeep
    | number p => rfl
    | spelling id => rfl
  · rw [hholds.size_eq, ← map_fst_given, List.map_map]
    rfl

/-- Two files, one of them in three spellings, asked for before and after they have numbers. -/
def spellings : List Call :=
  [.number ⟨"/p/A.java"⟩, .register ⟨"/p//A.java"⟩, .register ⟨"/p/B.java"⟩, .spelling 2,
    .register ⟨"/p/./A.java"⟩, .number ⟨"/p/A.java/"⟩, .spelling 0]

theorem spellings_numbered : (spellings.filterMap Call.path?).length < 2 ^ 32 ∧
    log Tables.call {} spellings =
      [.numbered ⟨"/p/A.java"⟩ none, .registered ⟨"/p//A.java"⟩ 0, .registered ⟨"/p/B.java"⟩ 1,
        .spelled 2 none, .registered ⟨"/p/./A.java"⟩ 0, .numbered ⟨"/p/A.java/"⟩ (some 0),
        .spelled 0 (some ⟨"/p//A.java"⟩)] ∧
    Numbering (log Tables.call {} spellings) ∧ (after call {} spellings).size = 2 := by
  have hfew : (spellings.filterMap Call.path?).length < 2 ^ 32 := by decide
  obtain ⟨hnumbering, hlog, -⟩ := paths_numbered spellings hfew
  exact ⟨hfew, rfl, hlog ▸ hnumbering, rfl⟩

end Rebuild.Workspace.FileRegistry
