import Mathlib
import Rebuild.Artifact.Writer
import Rebuild.Proofs.Artifact.Pools
import Rebuild.Proofs.Artifact.References
import Rebuild.Proofs.Descriptor

/-! What is read off the entries that were written for symbols. Main statement: where each entry of a
pool is a part of others or stands for a symbol in use, and each symbol in use has an entry, the
references of the pool are those of the symbols. -/
namespace Rebuild.Artifact

/-! ## Types of class entries -/

/-- The text of a class entry stands for a type: it is the internal name of the type, or the
descriptor of an array whose element the type is. -/
inductive StandsFor (text : String) : (type : String) → Prop
  | name (h : text.toList.head? ≠ some '[') : StandsFor text text
  | element {dimensions : Nat} {type : String} (hpos : 0 < dimensions) (hmax : dimensions ≤ 255)
      (htype : Text.IsWord [';'] type.toList)
      (htext : text.toList = List.replicate dimensions '[' ++ 'L' :: type.toList ++ [';']) :
      StandsFor text type

namespace Reference

variable {pool : ConstantPool} {text type : String}

theorem standsFor_of_classEntryType? (hbracket : text.toList.head? = some '[')
    (h : classEntryType? text = some type) : StandsFor text type := by
  rw [classEntryType?, if_pos hbracket] at h
  cases hparse : FieldType.parse text with
  | error e =>
    rw [hparse] at h
    cases h
  | ok t =>
    rw [hparse] at h
    obtain ⟨hdescribable, htext⟩ := (FieldType.parse_eq_ok_iff text t).mp hparse
    cases t with
    | base _ => cases h
    | object _ => cases h
    | array component =>
      have helement : component.array.element = .object type :=
        FieldType.objectName?_eq_some_iff.mp h
      refine .element (Nat.succ_pos _) hdescribable.1 (hdescribable.2 type h) ?_
      rw [htext, FieldType.descriptor_eq, helement, List.append_assoc]
      rfl

theorem classEntryType?_element {dimensions : Nat} (hmax : dimensions + 1 ≤ 255)
    (htype : Text.IsWord [';'] type.toList) (htext : text.toList =
      List.replicate (dimensions + 1) '[' ++ 'L' :: type.toList ++ [';']) :
    classEntryType? text = some type := by
  let component := FieldType.arrays dimensions (.object type)
  have hname : component.objectName? = some type := by
    rw [FieldType.objectName?_eq_some_iff, FieldType.element_arrays]
    rfl
  have hdimensions : component.dimensions = dimensions := by
    rw [FieldType.dimensions_arrays]
    exact Nat.zero_add dimensions
  have hparse : FieldType.parse text = .ok component.array := by
    rw [FieldType.parse_eq_ok_iff]
    refine ⟨⟨?_, ?_⟩, ?_⟩
    · rw [FieldType.dimensions, hdimensions]
      exact hmax
    · intro name hmem
      obtain rfl : name = type := Option.some.inj (hmem.symm.trans hname)
      exact htype
    · rw [htext, FieldType.descriptor_eq, FieldType.dimensions, hdimensions, FieldType.element,
        FieldType.objectName?_eq_some_iff.mp hname, List.append_assoc]
      rfl
  rw [classEntryType?, htext, if_pos (by simp [List.replicate_succ]), hparse]
  exact hname

theorem classEntryType?_eq_some_iff : classEntryType? text = some type ↔ StandsFor text type := by
  by_cases hbracket : text.toList.head? = some '['
  · refine ⟨standsFor_of_classEntryType? hbracket, fun h => ?_⟩
    cases h with
    | name hname => exact absurd hbracket hname
    | @element dimensions _ hpos hmax htype htext =>
      obtain ⟨n, rfl⟩ := Nat.exists_eq_succ_of_ne_zero hpos.ne'
      exact classEntryType?_element hmax htype htext
  · rw [classEntryType?, if_neg hbracket, Option.some.injEq]
    constructor
    · rintro rfl
      exact .name hbracket
    · intro h
      cases h with
      | name _ => rfl
      | @element dimensions _ hpos hmax htype htext =>
        obtain ⟨n, rfl⟩ := Nat.exists_eq_succ_of_ne_zero hpos.ne'
        rw [htext] at hbracket
        simp [List.replicate_succ] at hbracket

end Reference

/-! ## Entries of symbols -/

namespace Symbol

/-- The class names that are written with a symbol. -/
def classNames : Symbol → List String
  | .type name => [name]
  | .field owner _ _ | .method owner _ _ | .interfaceMethod owner _ _ => [owner]
  | .methodType _ => []

/-- What is read off the entry of a symbol. -/
def references : Symbol → List Reference
  | .type name => (Reference.classEntryType? name).toList.map .type
  | .field owner name descriptor =>
    (Reference.classEntryType? owner).toList.map (.field · name descriptor)
  | .method owner name descriptor | .interfaceMethod owner name descriptor =>
    (Reference.classEntryType? owner).toList.map (.ofMethod · name descriptor)
  | .methodType descriptor => Reference.ofMethodType descriptor

end Symbol

namespace ConstantPool

variable {pool : ConstantPool} {index : Nat} {name descriptor : String} {constant : Constant}
  {s : Symbol} {uses uses' : List Symbol}

/-- At an index the pool has the name and the descriptor of a member. -/
def HasMember (pool : ConstantPool) (index : Nat) (name descriptor : String) : Prop :=
  ∃ n d, pool.Has index (.nameAndType n d) ∧ pool.HasText n name ∧ pool.HasText d descriptor

theorem HasMember.nameAndType_eq (h : pool.HasMember index name descriptor) :
    pool.nameAndType index = .ok (name, descriptor) := by
  obtain ⟨n, d, hindex, hname, hdescriptor⟩ := h
  unfold nameAndType
  rw [hindex.get]
  simp only [bind, Except.bind, hname.text_eq, hdescriptor.text_eq]
  rfl

/-- An entry of the pool stands for a symbol. -/
inductive Shows (pool : ConstantPool) : Constant → Symbol → Prop
  | type {text : Nat} {name : String} (hname : pool.HasText text name) :
      Shows pool (.classRef text) (.type name)
  | field {classIndex memberIndex : Nat} {owner name descriptor : String}
      (howner : pool.HasClass classIndex owner) (hmember : pool.HasMember memberIndex name descriptor) :
      Shows pool (.fieldRef classIndex memberIndex) (.field owner name descriptor)
  | method {classIndex memberIndex : Nat} {owner name descriptor : String}
      (howner : pool.HasClass classIndex owner) (hmember : pool.HasMember memberIndex name descriptor) :
      Shows pool (.methodRef classIndex memberIndex) (.method owner name descriptor)
  | interfaceMethod {classIndex memberIndex : Nat} {owner name descriptor : String}
      (howner : pool.HasClass classIndex owner) (hmember : pool.HasMember memberIndex name descriptor) :
      Shows pool (.interfaceMethodRef classIndex memberIndex) (.interfaceMethod owner name descriptor)
  | methodType {text : Nat} {descriptor : String} (htext : pool.HasText text descriptor) :
      Shows pool (.methodType text) (.methodType descriptor)

theorem ofMember_eq {make : String → String → String → Reference} {owner member : Nat}
    {ownerName : String} (howner : pool.HasClass owner ownerName)
    (hmember : pool.HasMember member name descriptor) :
    Reference.ofMember pool make owner member =
      .ok ((Reference.classEntryType? ownerName).toList.map (make · name descriptor)) := by
  unfold Reference.ofMember
  simp only [howner.className_eq, hmember.nameAndType_eq, bind, Except.bind]
  cases Reference.classEntryType? ownerName <;> rfl

theorem Shows.ofEntry_eq (h : pool.Shows constant s) (hget : pool.get index = .ok constant) :
    Reference.ofEntry pool index constant = .ok s.references := by
  cases h with
  | @type text name hname =>
    have hclass : pool.className index = .ok name := by
      unfold className
      rw [hget]
      exact hname.text_eq
    rw [Reference.ofEntry, hclass]
    rfl
  | field howner hmember => exact ofMember_eq howner hmember
  | method howner hmember => exact ofMember_eq howner hmember
  | interfaceMethod howner hmember => exact ofMember_eq howner hmember
  | methodType htext =>
    rw [Reference.ofEntry, htext.text_eq]
    rfl

/-- An entry is a part of others, from which no symbol is read, or stands for a symbol in use. -/
inductive Explains (pool : ConstantPool) (uses : List Symbol) (constant : Constant) : Prop
  | part (h : ∀ index, Reference.ofEntry pool index constant = .ok [])
  | symbol {s : Symbol} (hs : s ∈ uses) (h : pool.Shows constant s)

theorem Explains.mono (h : pool.Explains uses constant) (hsub : uses ⊆ uses') :
    pool.Explains uses' constant := by
  cases h with
  | part h => exact .part h
  | symbol hs h => exact .symbol (hsub hs) h

end ConstantPool

/-- The references of a pool in which each entry is explained and each use is shown. -/
theorem ConstantPool.exists_references {pool : ConstantPool} {uses : List Symbol}
    (hexplains : ∀ {index constant}, pool.get index = .ok constant → pool.Explains uses constant)
    (hshown : ∀ s ∈ uses, ∃ index constant, pool.Has index constant ∧ pool.Shows constant s) :
    ∃ references, Reference.ofEntries pool pool.toList = .ok references ∧
      ∀ r, r ∈ references ↔ ∃ s ∈ uses, r ∈ s.references := by
  have hall : ∀ e ∈ pool.toList, ∃ first, Reference.ofEntry pool e.1 e.2 = .ok first := by
    intro e he
    have hget := mem_toList.mp he
    cases hexplains hget with
    | part h => exact ⟨_, h e.1⟩
    | symbol _ h => exact ⟨_, h.ofEntry_eq hget⟩
  obtain ⟨references, hreferences⟩ := Reference.ofEntries_eq_ok hall
  refine ⟨references, hreferences, fun r => ⟨fun hr => ?_, fun ⟨s, hs, hr⟩ => ?_⟩⟩
  · obtain ⟨index, entry, first, hmem, hfirst, hr⟩ := Reference.exists_entry_of_mem hreferences hr
    have hget := mem_toList.mp hmem
    cases hexplains hget with
    | part h =>
      obtain rfl : [] = first := Except.ok.inj ((h index).symm.trans hfirst)
      cases hr
    | @symbol s hs h =>
      obtain rfl : s.references = first := Except.ok.inj ((h.ofEntry_eq hget).symm.trans hfirst)
      exact ⟨s, hs, hr⟩
  · obtain ⟨index, constant, hhas, hshows⟩ := hshown s hs
    obtain ⟨first, hfirst, hsub⟩ := Reference.mem_ofEntries hreferences (mem_toList.mpr hhas.get)
    obtain rfl : s.references = first :=
      Except.ok.inj ((hshows.ofEntry_eq hhas.get).symm.trans hfirst)
    exact hsub hr

end Rebuild.Artifact
