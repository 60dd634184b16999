import Mathlib
import Rebuild.Proofs.Descriptor
import Rebuild.Proofs.Signature.Reading

/-! Descriptors read as signatures. Main statement: a descriptor is the signature of the same types
without arguments, and it is read as this signature unless a type nests deeper than signatures may:
the object type below the dimensions of an array counts as well. -/
namespace Rebuild

open Text (Parser IsWord)

namespace FieldType

variable {t : FieldType} {limit : Nat}

/-- The type as signatures have it: an object type has one segment and no arguments. -/
def generic : FieldType → ValueType ReferenceType
  | base type => .base type
  | object internal => .reference (.ofClass ⟨⟨internal, []⟩, []⟩)
  | array component => .reference (.array component.generic)

/-- The object name contains none of the marks that end a name in signatures only. -/
def Unmarked (t : FieldType) : Prop :=
  ∀ name ∈ t.objectName?, '<' ∉ name.toList ∧ '.' ∉ name.toList

instance (t : FieldType) : Decidable t.Unmarked :=
  inferInstanceAs (Decidable (∀ name ∈ t.objectName?, '<' ∉ name.toList ∧ '.' ∉ name.toList))

/-- How deep the type nests as a signature: its dimensions, and the object type below them. -/
def depth (t : FieldType) : Nat := t.dimensions + t.objectName?.toList.length

@[simp]
theorem depth_base (type : BaseType) : (base type).depth = 0 := rfl

@[simp]
theorem depth_object (internal : String) : (object internal).depth = 1 := rfl

@[simp]
theorem depth_array (component : FieldType) : (array component).depth = component.depth + 1 :=
  Nat.add_right_comm ..

theorem generic_signature (t : FieldType) : t.generic.signature = t.descriptor := by
  induction t with
  | base type => rfl
  | object internal =>
    simp [generic, descriptor, ValueType.signature, ReferenceType.signature, ClassType.signature,
      ClassSegment.signature, ClassSegment.signatures, TypeArgument.list]
  | array component ih => exact congrArg ('[' :: ·) ih

theorem descriptor_mem_spellings (t : FieldType) : t.descriptor ∈ t.generic.spellings := by
  rw [← generic_signature]
  exact t.generic.standard.mem

theorem generic_writable (h : t.Describable) (hmarks : t.Unmarked) (hdepth : t.depth ≤ limit) :
    t.generic.Writable (ReferenceType.WritableUpTo limit) := by
  have hname : ∀ name ∈ t.objectName?, IsWord ['<', ';', '.'] name.toList := by
    intro name hname
    obtain ⟨hne, hsemicolon⟩ := h.2 name hname
    obtain ⟨hopening, hdot⟩ := hmarks name hname
    refine ⟨hne, fun c hc => ?_⟩
    simp only [List.mem_cons, List.not_mem_nil, or_false]
    rintro (rfl | rfl | rfl)
    · exact hopening hc
    · exact hsemicolon _ hc (by simp)
    · exact hdot hc
  -- From here on the type shrinks with the limit, while its name stays the same.
  clear h hmarks
  induction t generalizing limit with
  | base type => trivial
  | object internal =>
    obtain ⟨limit, rfl⟩ := Nat.exists_eq_add_of_le' hdepth
    exact ⟨by simpa [ClassType.segments] using hname internal rfl, by
      simp [ClassType.args, ClassType.segments]⟩
  | array component ih =>
    rw [depth_array] at hdepth
    obtain ⟨limit, rfl⟩ := Nat.exists_eq_add_of_le' (Nat.le_of_add_left_le hdepth)
    exact ih (Nat.le_of_add_le_add_right hdepth) hname

theorem value_refused {type : Parser ReferenceType} (hdepth : 0 < t.depth)
    (h : type.Refuses t.descriptor) : (ValueType.parser type).Refuses t.descriptor := by
  have hmap := h.map ValueType.reference
  cases t with
  | base type => exact absurd hdepth (Nat.lt_irrefl 0)
  | object internal => exact Parser.Reads.look_refuses (fun rest => Parser.peek?_reads _) hmap
  | array component => exact Parser.Reads.look_refuses (fun rest => Parser.peek?_reads _) hmap

/-- Each type inside uses up one of the types that may nest. -/
theorem descriptor_refused (h : limit < t.depth) :
    (ReferenceType.parserUpTo limit).Refuses t.descriptor := by
  induction t generalizing limit with
  | base type => exact absurd h (Nat.not_lt_zero limit)
  | object internal =>
    obtain rfl : limit = 0 := Nat.lt_one_iff.mp h
    exact Parser.fail_refuses
  | array component ih =>
    cases limit with
    | zero => exact Parser.fail_refuses
    | succ limit =>
      have hdepth : limit < component.depth := by simpa using h
      have hcomponent := value_refused (Nat.zero_lt_of_lt hdepth) (ih hdepth)
      exact Parser.Reads.look_refuses (fun rest => Parser.peek?_reads _)
        (Parser.Reads.bind_refuses (fun rest => Parser.expect_reads '[' _) (hcomponent.map _))

theorem value_refused_of_deep (h : ReferenceType.maxDepth < t.depth) :
    (ValueType.parser ReferenceType.parser).Refuses t.descriptor :=
  value_refused (Nat.zero_lt_of_lt h) (descriptor_refused h)

theorem descriptor_read (h : t.Describable) (hmarks : t.Unmarked)
    (hdepth : t.depth ≤ ReferenceType.maxDepth) (rest : List Char) :
    (ValueType.parser ReferenceType.parser).Reads t.descriptor rest t.generic :=
  ValueType.parser_reads ReferenceType.all_read (generic_writable h hmarks hdepth)
    t.descriptor_mem_spellings rest

theorem head_descriptor (t : FieldType) : ∃ c ∈ t.descriptor.head?, c ≠ ')' ∧ c ≠ 'V' :=
  ValueType.head_spellings t.descriptor_mem_spellings

end FieldType

namespace MethodDescriptor

variable {d : MethodDescriptor}

/-- The method as signatures have it, without type parameters and thrown types. -/
def generic (d : MethodDescriptor) : MethodSignature where
  typeParams := []
  params := d.params.map FieldType.generic
  returns := d.returns.map FieldType.generic
  thrown := []

theorem flatMap_signature (types : List FieldType) :
    (types.map FieldType.generic).flatMap ValueType.signature =
      types.flatMap FieldType.descriptor := by
  simp [List.flatMap_map, FieldType.generic_signature]

theorem generic_signature (d : MethodDescriptor) : d.generic.signature = d.descriptor := by
  obtain ⟨params, returns⟩ := d
  cases returns with
  | none => simp [generic, MethodSignature.signature, TypeParameter.list, descriptor,
      flatMap_signature]
  | some t =>
    simp [generic, MethodSignature.signature, TypeParameter.list, descriptor,
      flatMap_signature, FieldType.generic_signature]

theorem generic_writable (h : d.Describable) (hmarks : ∀ t ∈ d.types, t.Unmarked)
    (hdepth : ∀ t ∈ d.types, t.depth ≤ ReferenceType.maxDepth) : d.generic.Writable := by
  have htype (t : FieldType) (ht : t ∈ d.types) :
      t.generic.Writable ReferenceType.Writable :=
    FieldType.generic_writable (h t ht) (hmarks t ht) (hdepth t ht)
  refine ⟨by simp [generic], fun type hmem => ?_, fun type hmem => ?_, by simp [generic]⟩
  · obtain ⟨t, ht, rfl⟩ := List.mem_map.mp hmem
    exact htype t (List.mem_append_left _ ht)
  · obtain ⟨t, ht, rfl⟩ := Option.mem_map.mp hmem
    exact htype t (List.mem_append_right _ (Option.mem_toList.mpr ht))

theorem params_read {types : List FieldType} (h : ∀ t ∈ types, t.Describable)
    (hmarks : ∀ t ∈ types, t.Unmarked) (hdepth : ∀ t ∈ types, t.depth ≤ ReferenceType.maxDepth)
    (rest : List Char) :
    (Parser.untilChar ')' (ValueType.parser ReferenceType.parser)).Reads
      (types.flatMap FieldType.descriptor ++ [')']) rest (types.map FieldType.generic) := by
  have hwritable : ∀ type ∈ types.map FieldType.generic, type.Writable ReferenceType.Writable := by
    intro type hmem
    obtain ⟨t, ht, rfl⟩ := List.mem_map.mp hmem
    exact FieldType.generic_writable (h t ht) (hmarks t ht) (hdepth t ht)
  have hstandard : Standard ((types.map FieldType.generic).map ValueType.spellings).prod
      ((types.map FieldType.generic).flatMap ValueType.signature) := .prod fun type _ => type.standard
  rw [← flatMap_signature]
  exact ValueType.list_reads hwritable hstandard.mem rest

theorem params_refused (h : ∀ t ∈ d.params, t.Describable) (hmarks : ∀ t ∈ d.params, t.Unmarked)
    (hdeep : ∃ t ∈ d.params, ReferenceType.maxDepth < t.depth) :
    (Parser.untilChar ')' (ValueType.parser ReferenceType.parser)).Refuses
      (d.params.flatMap FieldType.descriptor) := by
  have hitem : ∀ t ∈ d.params,
      (ValueType.parser ReferenceType.parser).Refuses t.descriptor ∨
        ∃ type, ∀ later,
          (ValueType.parser ReferenceType.parser).Reads t.descriptor later type := by
    intro t ht
    rcases Nat.lt_or_ge ReferenceType.maxDepth t.depth with hdepth | hdepth
    · exact .inl (FieldType.value_refused_of_deep hdepth)
    · exact .inr ⟨t.generic, FieldType.descriptor_read (h t ht) (hmarks t ht) hdepth⟩
  obtain ⟨t, ht, hdepth⟩ := hdeep
  refine Parser.untilChar_refuses (fun t _ => ?_) hitem
    ⟨t, ht, FieldType.value_refused_of_deep hdepth⟩
  obtain ⟨c, hc, hne, -⟩ := t.head_descriptor
  exact ⟨c, hc, hne⟩

theorem returns_refused {t : FieldType} (hdeep : ReferenceType.maxDepth < t.depth) :
    MethodSignature.parseReturn.Refuses t.descriptor := by
  obtain ⟨c, hc, -, hne⟩ := t.head_descriptor
  exact Parser.Reads.look_refuses (Parser.eat_reads_in_front hc hne)
    ((FieldType.value_refused_of_deep hdeep).map some)

/-- One type that nests too deep is enough. -/
theorem descriptor_refused (h : d.Describable) (hmarks : ∀ t ∈ d.types, t.Unmarked)
    (hdeep : ∃ t ∈ d.types, ReferenceType.maxDepth < t.depth) :
    MethodSignature.parser.Refuses d.descriptor := by
  have hparam {t : FieldType} (ht : t ∈ d.params) : t ∈ d.types := List.mem_append_left _ ht
  have hlist (rest : List Char) : TypeParameter.listParser.Reads [] (d.descriptor ++ rest) [] :=
    TypeParameter.listParser_reads (by simp) (TypeParameter.list_standard []).mem
      (by simp [descriptor])
  refine Parser.Reads.look_refuses hlist ?_
  change Parser.Refuses _ (['('] ++ (d.params.flatMap FieldType.descriptor ++ _))
  refine Parser.Reads.bind_refuses (fun rest => Parser.expect_reads '(' _) ?_
  by_cases hdeepParam : ∃ t ∈ d.params, ReferenceType.maxDepth < t.depth
  · have hparams := params_refused (fun t ht => h t (hparam ht)) (fun t ht => hmarks t (hparam ht))
      hdeepParam
    exact (hparams.append _).bind
  · have hshallow : ∀ t ∈ d.params, t.depth ≤ ReferenceType.maxDepth := by
      simpa using hdeepParam
    obtain ⟨t, ht, hdepth⟩ := hdeep
    have hreturns : d.returns = some t := by
      rcases List.mem_append.mp ht with ht | ht
      · exact absurd (hshallow t ht) (Nat.not_le.mpr hdepth)
      · exact Option.mem_toList.mp ht
    have hread (rest : List Char) :=
      params_read (fun t ht => h t (hparam ht)) (fun t ht => hmarks t (hparam ht)) hshallow rest
    rw [hreturns, List.append_cons]
    exact Parser.Reads.bind_refuses (fun rest => hread _) (returns_refused hdepth).bind

end MethodDescriptor

/-- The text is read as the signature if no type nests too deep, and refused otherwise. -/
structure ReadToDepth {α : Type} (parse : String → Except DecodeError α) (text : String)
    (types : List FieldType) (a : α) : Prop where
  ok : (∀ t ∈ types, t.depth ≤ ReferenceType.maxDepth) → parse text = .ok a
  error : (∃ t ∈ types, ReferenceType.maxDepth < t.depth) →
    ∃ offset, parse text = .error (.invalidSignature text offset)

theorem signatureError_of_refuses {α : Type} {parser : Parser α} {text : String}
    (h : parser.Refuses text.toList) : ∃ offset,
      signatureError text (parser.parseAll text) = .error (.invalidSignature text offset) := by
  obtain ⟨offset, hparse⟩ := h.parseAll
  exact ⟨offset, congrArg (signatureError text) hparse⟩

/-- Descriptors without marks of signatures are read as signatures of the same types, as long as
these nest to the limit of signatures at most. -/
theorem descriptors_read_as_signatures (text : String) :
    (∀ d, MethodDescriptor.parse text = .ok d → (∀ t ∈ d.types, t.Unmarked) →
      ReadToDepth MethodSignature.parse text d.types d.generic) ∧
    ∀ t type, FieldType.parse text = .ok t → t.Unmarked → t.generic = .reference type →
      ReadToDepth ReferenceType.parse text [t] type := by
  constructor
  · intro d hparse hmarks
    obtain ⟨hd, htext⟩ := (MethodDescriptor.parse_eq_ok_iff text d).mp hparse
    refine ⟨fun hdepth => ?_, fun hdeep => signatureError_of_refuses ?_⟩
    · have hread := MethodSignature.parse_signature (d.generic_writable hd hmarks hdepth)
      rwa [MethodDescriptor.generic_signature, ← htext, String.ofList_toList] at hread
    · rw [htext]
      exact MethodDescriptor.descriptor_refused hd hmarks hdeep
  · intro t type hparse hmarks htype
    obtain ⟨ht, htext⟩ := (FieldType.parse_eq_ok_iff text t).mp hparse
    refine ⟨fun hdepth => ?_, fun hdeep => signatureError_of_refuses ?_⟩
    · have hwritable := t.generic_writable ht hmarks (hdepth t List.mem_cons_self)
      have hsignature := t.generic_signature
      rw [htype] at hwritable hsignature
      have hread := ReferenceType.parse_signature hwritable
      rwa [← ValueType.signature, hsignature, ← htext, String.ofList_toList] at hread
    · obtain ⟨_, hmem, hdeep⟩ := hdeep
      obtain rfl := List.mem_singleton.mp hmem
      rw [htext]
      exact FieldType.descriptor_refused hdeep

theorem descriptors_read_as_signatures_arrays :
    let t : FieldType := .array (.object "p/A")
    let d : MethodDescriptor := ⟨[.base .int, t], some t⟩
    let type : ReferenceType := .array (.reference (.ofClass ⟨⟨"p/A", []⟩, []⟩))
    (MethodDescriptor.parse "(I[Lp/A;)[Lp/A;" = .ok d ∧ (∀ t ∈ d.types, t.Unmarked) ∧
      ReadToDepth MethodSignature.parse "(I[Lp/A;)[Lp/A;" d.types d.generic) ∧
    FieldType.parse "[Lp/A;" = .ok t ∧ t.Unmarked ∧ t.generic = .reference type ∧
      ReadToDepth ReferenceType.parse "[Lp/A;" [t] type := by
  intro t d type
  have hd : MethodDescriptor.parse "(I[Lp/A;)[Lp/A;" = .ok d := by decide +kernel
  have ht : FieldType.parse "[Lp/A;" = .ok t := by decide +kernel
  have hmarks : ∀ t ∈ d.types, t.Unmarked := by decide +kernel
  have hunmarked : t.Unmarked := hmarks t (by decide)
  exact ⟨⟨hd, hmarks, (descriptors_read_as_signatures _).1 d hd hmarks⟩, ht, hunmarked, rfl,
    (descriptors_read_as_signatures _).2 t type ht hunmarked rfl⟩

/-- An array of the most dimensions is a descriptor, but not a signature unless its element is a base
type. -/
theorem full_object_array_refused :
    let t := FieldType.arrays 255 (.object "p/A")
    let text := String.ofList (List.replicate 255 '[' ++ "Lp/A;".toList)
    FieldType.parse text = .ok t ∧ t.Unmarked ∧ (ReferenceType.parse text).isOk = false := by
  intro t text
  have hdescribable : t.Describable := ⟨by decide +kernel, by decide +kernel⟩
  have htext : text.toList = t.descriptor := by
    rw [FieldType.descriptor_eq, FieldType.dimensions_arrays, FieldType.element_arrays,
      String.toList_ofList]
    rfl
  have hdepth : ReferenceType.maxDepth < t.depth := by decide +kernel
  have hrefused : ReferenceType.parser.Refuses text.toList := by
    rw [htext]
    exact FieldType.descriptor_refused hdepth
  obtain ⟨offset, herror⟩ := signatureError_of_refuses hrefused
  refine ⟨(FieldType.parse_eq_ok_iff text t).mpr ⟨hdescribable, htext⟩, by decide +kernel, ?_⟩
  rw [ReferenceType.parse, herror]
  rfl

end Rebuild
