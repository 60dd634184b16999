import Mathlib
import Rebuild.Artifact.Reference

/-! What the symbols of an artifact say of its constant pool. Main statement: the type symbols are
those that class entries and method types mention, and each member comes with the type that it
belongs to, so whoever follows the types alone misses none of the owners. -/
namespace Rebuild.Artifact

/-! ## Entries by index -/

namespace ConstantPool

variable {pool : ConstantPool} {index : Nat} {entry : Constant} {name : String}

theorem get_eq_ok : pool.get index = .ok entry ↔
    pool.entries[index]? = some entry ∧ entry ≠ .unusable := by
  unfold get
  split
  · next h => simp [h]
  · next h =>
    rw [h]
    simp only [reduceCtorEq, Option.some.injEq, false_iff, not_and, not_not]
    exact Eq.symm
  · next found hunusable h =>
    rw [h]
    simp only [Except.ok.injEq, Option.some.injEq, iff_self_and]
    rintro rfl rfl
    exact hunusable rfl

theorem mem_indexed_cons {start : Nat} {first : Constant} {rest : List Constant} :
    (index, entry) ∈ indexed start (first :: rest) ↔
      index = start ∧ entry = first ∧ entry ≠ .unusable ∨
        (index, entry) ∈ indexed (start + 1) rest := by
  cases first
  case unusable =>
    rw [indexed]
    refine ⟨.inr, ?_⟩
    rintro (⟨-, h, hne⟩ | h)
    · exact absurd h hne
    · exact h
  all_goals
    rw [indexed, List.mem_cons, Prod.mk.injEq]
    · refine or_congr_left ⟨fun ⟨hindex, hentry⟩ => ⟨hindex, hentry, by simp [hentry]⟩,
        fun ⟨hindex, hentry, _⟩ => ⟨hindex, hentry⟩⟩
    · simp

theorem mem_indexed {entries : List Constant} {start : Nat} :
    (index, entry) ∈ indexed start entries ↔
      ∃ i, index = start + i ∧ entries[i]? = some entry ∧ entry ≠ .unusable := by
  induction entries generalizing start with
  | nil => simp [indexed]
  | cons first rest ih =>
    rw [mem_indexed_cons, ih]
    constructor
    · rintro (⟨hindex, hentry, hne⟩ | ⟨i, hindex, hentry, hne⟩)
      · exact ⟨0, hindex, by rw [hentry]; rfl, hne⟩
      · exact ⟨i + 1, by omega, hentry, hne⟩
    · rintro ⟨i, hindex, hentry, hne⟩
      cases i with
      | zero => exact .inl ⟨hindex, (Option.some.inj hentry).symm, hne⟩
      | succ i => exact .inr ⟨i, by omega, hentry, hne⟩

/-- Going through the pool meets the entries that can be looked up, at their indices. -/
theorem mem_toList : (index, entry) ∈ pool.toList ↔ pool.get index = .ok entry := by
  rw [toList, mem_indexed, get_eq_ok]
  simp

/-- The name of a class is looked up at a class entry. -/
theorem exists_of_className_eq_ok (h : pool.className index = .ok name) :
    ∃ text, (index, .classRef text) ∈ pool.toList := by
  unfold className at h
  cases hget : pool.get index with
  | error e =>
    rw [hget] at h
    cases h
  | ok entry =>
    rw [hget] at h
    cases entry with
    | classRef text => exact ⟨text, mem_toList.2 hget⟩
    | _ => cases h

/-- The pool mentions a type, given by its internal name: a class entry stands for it, or it occurs
in the descriptor of a method type. -/
inductive Mentions (pool : ConstantPool) (internal : String) : Prop
  | entry {index text : Nat} {name : String} (hentry : (index, .classRef text) ∈ pool.toList)
      (hname : pool.className index = .ok name)
      (htype : Reference.classEntryType? name = some internal) : Mentions pool internal
  | methodType {index descriptor : Nat} {text : String} {d : MethodDescriptor} {type : FieldType}
      (hentry : (index, .methodType descriptor) ∈ pool.toList)
      (htext : pool.text descriptor = .ok text) (hparse : MethodDescriptor.parse text = .ok d)
      (hmem : type ∈ d.params ++ d.returns.toList) (htype : type.objectName? = some internal) :
      Mentions pool internal

end ConstantPool

/-! ## Symbols of entries -/

namespace Reference

variable {pool : ConstantPool} {entries : List (Nat × Constant)} {references first : List Reference}
  {r : Reference} {index : Nat} {entry : Constant} {internal : String}

theorem ofEntries_cons {rest : List (Nat × Constant)}
    (h : ofEntries pool ((index, entry) :: rest) = .ok references) :
    ∃ first others, ofEntry pool index entry = .ok first ∧
      ofEntries pool rest = .ok others ∧ references = first ++ others := by
  rw [ofEntries] at h
  cases hfirst : ofEntry pool index entry with
  | error err => simp [hfirst, bind, Except.bind] at h
  | ok first =>
    cases hothers : ofEntries pool rest with
    | error err => simp [hfirst, hothers, bind, Except.bind] at h
    | ok others =>
      refine ⟨first, others, rfl, rfl, ?_⟩
      simpa [hfirst, hothers, bind, Except.bind, pure, Except.pure, eq_comm] using h

theorem ofEntries_eq_ok (h : ∀ e ∈ entries, ∃ first, ofEntry pool e.1 e.2 = .ok first) :
    ∃ references, ofEntries pool entries = .ok references := by
  induction entries with
  | nil => exact ⟨[], rfl⟩
  | cons e rest ih =>
    obtain ⟨hfirst, hrest⟩ := List.forall_mem_cons.mp h
    obtain ⟨first, hfirst⟩ := hfirst
    obtain ⟨others, hothers⟩ := ih hrest
    refine ⟨first ++ others, ?_⟩
    simp only [ofEntries, hfirst, hothers, bind, Except.bind]
    rfl

theorem mem_ofEntries (h : ofEntries pool entries = .ok references)
    (hmem : (index, entry) ∈ entries) :
    ∃ first, ofEntry pool index entry = .ok first ∧ first ⊆ references := by
  induction entries generalizing references with
  | nil => cases hmem
  | cons e rest ih =>
    obtain ⟨first, others, hfirst, hothers, rfl⟩ := ofEntries_cons h
    rcases List.mem_cons.mp hmem with rfl | hmem
    · exact ⟨first, hfirst, List.subset_append_left ..⟩
    · obtain ⟨found, hfound, hsub⟩ := ih hothers hmem
      exact ⟨found, hfound, List.Subset.trans hsub (List.subset_append_right ..)⟩

theorem exists_entry_of_mem (h : ofEntries pool entries = .ok references) (hr : r ∈ references) :
    ∃ index entry first, (index, entry) ∈ entries ∧
      ofEntry pool index entry = .ok first ∧ r ∈ first := by
  induction entries generalizing references with
  | nil =>
    obtain rfl : [] = references := by simpa [ofEntries, pure, Except.pure] using h
    cases hr
  | cons e rest ih =>
    obtain ⟨first, others, hfirst, hothers, rfl⟩ := ofEntries_cons h
    rcases List.mem_append.mp hr with hr | hr
    · exact ⟨e.1, e.2, first, by simp, hfirst, hr⟩
    · obtain ⟨index, entry, first', hmem, hrest⟩ := ih hothers hr
      exact ⟨index, entry, first', by simp [hmem], hrest⟩

/-- The type of a member has a class entry, the one that the member's entry refers to. -/
theorem mentions_owner_of_mem_ofMember {make : String → String → String → Reference}
    {owner nameAndType : Nat}
    (hmake : ∀ type name descriptor, (make type name descriptor).owner = type)
    (h : ofMember pool make owner nameAndType = .ok first) (hr : r ∈ first) :
    pool.Mentions r.owner := by
  unfold ofMember at h
  cases hname : pool.className owner with
  | error e => simp [hname, bind, Except.bind] at h
  | ok name =>
    obtain ⟨text, hentry⟩ := ConstantPool.exists_of_className_eq_ok hname
    cases htype : classEntryType? name with
    | none =>
      obtain rfl : [] = first := by
        simpa [hname, htype, bind, Except.bind, pure, Except.pure] using h
      cases hr
    | some type =>
      cases hpair : pool.nameAndType nameAndType with
      | error e => simp [hname, htype, hpair, bind, Except.bind] at h
      | ok pair =>
        obtain rfl : [make type pair.1 pair.2] = first := by
          simpa [hname, htype, hpair, bind, Except.bind, pure, Except.pure] using h
        obtain rfl := List.mem_singleton.1 hr
        rw [hmake]
        exact .entry hentry hname htype

theorem owner_ofMethod (type name descriptor : String) :
    (ofMethod type name descriptor).owner = type := by
  unfold ofMethod
  split <;> rfl

/-- The type of each symbol, itself or a member, is mentioned. -/
theorem mentions_owner (hentry : (index, entry) ∈ pool.toList)
    (h : ofEntry pool index entry = .ok first) (hr : r ∈ first) : pool.Mentions r.owner := by
  cases entry with
  | classRef text =>
    rw [ofEntry] at h
    cases hname : pool.className index with
    | error e =>
      obtain rfl : [] = first := by simpa [hname] using h
      cases hr
    | ok name =>
      obtain rfl : (classEntryType? name).toList.map type = first := by simpa [hname] using h
      obtain ⟨internal, htype, rfl⟩ := List.mem_map.1 hr
      exact .entry hentry hname (Option.mem_toList.1 htype)
  | methodType descriptor =>
    rw [ofEntry] at h
    cases htext : pool.text descriptor with
    | error e =>
      obtain rfl : [] = first := by simpa [htext] using h
      cases hr
    | ok text =>
      obtain rfl : ofMethodType text = first := by simpa [htext] using h
      unfold ofMethodType at hr
      cases hparse : MethodDescriptor.parse text with
      | error e =>
        rw [hparse] at hr
        cases hr
      | ok d =>
        rw [hparse] at hr
        obtain ⟨fieldType, hmem, hsome⟩ := List.mem_filterMap.1 hr
        obtain ⟨internal, hinternal, rfl⟩ := Option.map_eq_some_iff.1 hsome
        exact .methodType hentry htext hparse hmem hinternal
  | fieldRef owner nameAndType =>
    exact mentions_owner_of_mem_ofMember (fun _ _ _ => rfl) h hr
  | methodRef owner nameAndType | interfaceMethodRef owner nameAndType =>
    exact mentions_owner_of_mem_ofMember owner_ofMethod h hr
  | _ =>
    obtain rfl : [] = first := by simpa [ofEntry] using h
    cases hr

theorem type_mem_of_mentions (h : ofEntries pool pool.toList = .ok references)
    (hmentions : pool.Mentions internal) : type internal ∈ references := by
  cases hmentions with
  | entry hentry hname htype =>
    obtain ⟨first, hfirst, hsub⟩ := mem_ofEntries h hentry
    obtain rfl : _ = first := by simpa [ofEntry, hname] using hfirst
    exact hsub (by simp [htype])
  | methodType hentry htext hparse hmem htype =>
    obtain ⟨first, hfirst, hsub⟩ := mem_ofEntries h hentry
    obtain rfl : _ = first := by simpa [ofEntry, htext] using hfirst
    refine hsub ?_
    rw [ofMethodType, hparse]
    exact List.mem_filterMap.2 ⟨_, hmem, by simp [htype]⟩

end Reference

namespace ClassFile

variable {c : ClassFile} {references : List Reference}

theorem mentions_owner_of_mem (h : c.references = .ok references) {r : Reference}
    (hr : r ∈ references) : c.pool.Mentions r.owner := by
  obtain ⟨index, entry, first, hentry, hfirst, hmem⟩ := Reference.exists_entry_of_mem h hr
  exact Reference.mentions_owner hentry hfirst hmem

/-- The type symbols are the types that the pool mentions. -/
theorem type_mem_references_iff (h : c.references = .ok references) {internal : String} :
    .type internal ∈ references ↔ c.pool.Mentions internal :=
  ⟨mentions_owner_of_mem h, Reference.type_mem_of_mentions h⟩

/-- The owner of each symbol is among the types, and these are the types that the pool mentions. So
what the owners of symbols lead to, types lead to alone. -/
theorem owners_among_types (h : c.references = .ok references) :
    (∀ r ∈ references, .type r.owner ∈ references) ∧
    (∀ internal, .type internal ∈ references ↔ c.pool.Mentions internal) ∧
    ∀ {δ : Type} (resolve : String → Option δ) (d : δ),
      (∃ r ∈ references, resolve r.owner = some d) ↔
        ∃ internal, .type internal ∈ references ∧ resolve internal = some d := by
  have howner (r : Reference) (hr : r ∈ references) : .type r.owner ∈ references :=
    (type_mem_references_iff h).2 (mentions_owner_of_mem h hr)
  refine ⟨howner, fun internal => type_mem_references_iff h, fun resolve d => ⟨?_, ?_⟩⟩
  · rintro ⟨r, hr, hd⟩
    exact ⟨r.owner, howner r hr, hd⟩
  · rintro ⟨internal, hmem, hd⟩
    exact ⟨.type internal, hmem, hd⟩

/-- A method of an array and a field, in front of the class entries that they refer to, and a number
that takes two places between them. -/
def ahead : ClassFile where
  minorVersion := 0
  majorVersion := 52
  access := 0x21
  thisClass := "p/A"
  superClass := none
  interfaces := []
  fields := []
  methods := []
  signature := none
  innerClasses := []
  pool := ⟨[.unusable, .methodRef 6 8, .fieldRef 5 8, .long 42, .unusable, .classRef 7, .classRef 9,
    .utf8 "p/B", .nameAndType 7 7, .utf8 "[Lp/A;"]⟩

theorem owners_among_types_ahead :
    let references : List Reference :=
      [.method "p/A" "p/B" "p/B", .field "p/B" "p/B" "p/B", .type "p/B", .type "p/A"]
    ahead.references = .ok references ∧ ∀ r ∈ references, .type r.owner ∈ references :=
  ⟨by decide, (owners_among_types (by decide : ahead.references = .ok _)).1⟩

end ClassFile

end Rebuild.Artifact
