import Mathlib
import Rebuild.Descriptor
import Rebuild.Proofs.Text.Parsing

/-! Which texts are descriptors. Main statement: reading and writing descriptors are inverse to each
other between the types that have a descriptor and the texts that are accepted, and every other text
is refused. -/
namespace Rebuild

open Text (Parser IsWord)

/-- Reading accepts the texts of the values that can be written, one value each, and refuses all
other texts as invalid descriptors. -/
structure ReadsExactly {α : Type} (parse : String → Except DecodeError α) (writable : α → Prop)
    (written : α → List Char) : Prop where
  ok_iff : ∀ text a, parse text = .ok a ↔ writable a ∧ text.toList = written a
  bijOn : Set.BijOn (fun a => String.ofList (written a)) {a | writable a}
    {text | (parse text).isOk}
  error_iff : ∀ text e, parse text = .error e ↔
    e = .invalidDescriptor text ∧ ∀ a, writable a → text.toList ≠ written a

theorem ReadsExactly.of_ok_iff {α : Type} {parse : String → Except DecodeError α}
    {writable : α → Prop} {written : α → List Char}
    (hok : ∀ text a, parse text = .ok a ↔ writable a ∧ text.toList = written a)
    (herror : ∀ text e, parse text = .error e → e = .invalidDescriptor text) :
    ReadsExactly parse writable written where
  ok_iff := hok
  bijOn := by
    have hread {a : α} (ha : writable a) : parse (String.ofList (written a)) = .ok a :=
      (hok _ a).mpr ⟨ha, String.toList_ofList⟩
    refine ⟨fun a ha => ?_, fun a ha b hb heq => ?_, fun text htext => ?_⟩
    · show (parse (String.ofList (written a))).isOk
      rw [hread ha]
      rfl
    · have hsame := congrArg parse heq
      rw [hread ha, hread hb] at hsame
      exact Except.ok.inj hsame
    · cases hparse : parse text with
      | error e =>
        change (parse text).isOk = true at htext
        rw [hparse] at htext
        cases htext
      | ok a =>
        obtain ⟨ha, hwritten⟩ := (hok text a).mp hparse
        exact ⟨a, ha, by simp [← hwritten]⟩
  error_iff := by
    intro text e
    constructor
    · intro h
      refine ⟨herror text e h, fun a ha heq => ?_⟩
      rw [(hok text a).mpr ⟨ha, heq⟩] at h
      cases h
    · rintro ⟨rfl, hnone⟩
      cases hparse : parse text with
      | error e => rw [herror text e hparse]
      | ok a =>
        obtain ⟨ha, heq⟩ := (hok text a).mp hparse
        exact absurd heq (hnone a ha)

theorem BaseType.ofLetter?_eq_some {c : Char} {b : BaseType} :
    ofLetter? c = some b ↔ b.letter = c := by
  constructor
  · intro h
    unfold ofLetter? at h
    split at h <;> cases h <;> rfl
  · rintro rfl
    exact ofLetter?_letter b

namespace FieldType

variable {t : FieldType} {n : Nat}

/-! ## Dimensions -/

theorem arrays_array (n : Nat) (t : FieldType) : arrays n (array t) = array (arrays n t) := by
  induction n generalizing t with
  | zero => rfl
  | succ n ih => exact ih (array t)

theorem arrays_element (t : FieldType) : arrays t.dimensions t.element = t := by
  induction t with
  | base type => rfl
  | object internal => rfl
  | array component ih =>
    show arrays component.dimensions (array component.element) = array component
    rw [arrays_array, ih]

theorem descriptor_eq (t : FieldType) :
    t.descriptor = List.replicate t.dimensions '[' ++ t.element.descriptor := by
  induction t with
  | base type => rfl
  | object internal => rfl
  | array component ih => simp [descriptor, dimensions, element, List.replicate_succ, ← ih]

theorem dimensions_arrays (n : Nat) (t : FieldType) :
    (arrays n t).dimensions = t.dimensions + n := by
  induction n generalizing t with
  | zero => rfl
  | succ n ih => simp [arrays, ih, dimensions, Nat.add_assoc, Nat.add_comm 1]

theorem element_arrays (n : Nat) (t : FieldType) : (arrays n t).element = t.element := by
  induction n generalizing t with
  | zero => rfl
  | succ n ih => exact ih (array t)

theorem dimensions_element (t : FieldType) : t.element.dimensions = 0 := by
  induction t with
  | base type => rfl
  | object internal => rfl
  | array component ih => exact ih

theorem element_element (t : FieldType) : t.element.element = t.element := by
  induction t with
  | base type => rfl
  | object internal => rfl
  | array component ih => exact ih

theorem objectName?_eq_some_iff {name : String} :
    t.objectName? = some name ↔ t.element = .object name := by
  unfold objectName?
  cases t.element <;> simp

/-! ## Types that have a descriptor -/

/-- The limits of the format: at most 255 dimensions, and an object name that is not empty and does
not contain the semicolon behind it. -/
def Describable (t : FieldType) : Prop :=
  t.dimensions ≤ 255 ∧ ∀ name ∈ t.objectName?, IsWord [';'] name.toList

/-- The descriptor of a type that has one. -/
def described : FieldType → Language Char := Parser.written Describable descriptor

theorem parseDimensions_reads {rest : List Char} (n : Nat) (h : rest.head? ≠ some '[') :
    parseDimensions.Reads (List.replicate n '[') rest n := by
  have hbracket : ∀ c ∈ List.replicate n '[', (c == '[') = true := by simp
  have hend : rest.takeWhile (· == '[') = [] ∧ rest.dropWhile (· == '[') = rest := by
    cases rest with
    | nil => simp
    | cons c rest => simpa using h
  unfold Parser.Reads parseDimensions
  simp [List.takeWhile_append_of_pos hbracket, List.dropWhile_append_of_pos hbracket, hend]

/-- Types that are no arrays. -/
def plain (t : FieldType) : Language Char := {text | t.dimensions = 0 ∧ text ∈ t.described}

theorem head_plain {text : List Char} (h : text ∈ t.plain) : ∃ c ∈ text.head?, c ≠ '[' := by
  obtain ⟨hzero, -, rfl⟩ := h
  cases t with
  | base type => cases type <;> exact ⟨_, rfl, by decide⟩
  | object internal => exact ⟨'L', rfl, by decide⟩
  | array component => cases hzero

theorem parseElement_reads {text : List Char} (h : text ∈ t.plain) (rest : List Char) :
    parseElement.Reads text rest t := by
  obtain ⟨hzero, hdescribable, rfl⟩ := h
  cases t with
  | base type =>
    apply (Parser.peek?_reads _).bind_look
    simp only [descriptor, List.cons_append, List.head?_cons, BaseType.ofLetter?_letter]
    exact (Parser.expect_reads type.letter rest).bind_pure fun _ => base type
  | object internal =>
    have hword : IsWord [';'] internal.toList := hdescribable.2 internal rfl
    have hread : (Parser.word (· == ';')).Reads internal.toList ([';'] ++ rest) internal.toList :=
      Parser.word_reads (by simp) hword (by simp)
    apply (Parser.peek?_reads _).bind_look
    show Parser.Reads (do
      Parser.expect 'L'
      let name ← Parser.word (· == ';')
      Parser.expect ';'
      return object (String.ofList name)) (['L'] ++ (internal.toList ++ [';'])) rest _
    apply (Parser.expect_reads 'L' _).bind
    apply hread.bind
    apply (Parser.expect_reads ';' rest).bind_nil
    rw [String.ofList_toList]
    exact Parser.Reads.pure _
  | array component => cases hzero

theorem parseElement_takes : parseElement.Takes plain := by
  intro input t rest h
  obtain ⟨first, _, hpeek, hfirst⟩ := Parser.bind_eq_ok.mp h
  obtain ⟨-, rfl⟩ := Parser.peek?_eq_ok.mp hpeek
  cases first with
  | none => exact absurd hfirst Parser.fail_ne_ok
  | some c =>
    cases htype : BaseType.ofLetter? c with
    | some type =>
      simp only [htype] at hfirst
      obtain ⟨_, _, hexpect, hpure⟩ := Parser.bind_eq_ok.mp hfirst
      obtain rfl := Parser.expect_eq_ok.mp hexpect
      obtain ⟨rfl, rfl⟩ := Parser.pure_eq_ok.mp hpure
      obtain rfl := BaseType.ofLetter?_eq_some.mp htype
      exact ⟨[type.letter], ⟨rfl, ⟨Nat.zero_le _, nofun⟩, rfl⟩, rfl⟩
    | none =>
      simp only [htype] at hfirst
      obtain ⟨_, _, hopen, hword⟩ := Parser.bind_eq_ok.mp hfirst
      obtain ⟨name, _, hname, hend⟩ := Parser.bind_eq_ok.mp hword
      obtain ⟨_, _, hclose, hpure⟩ := Parser.bind_eq_ok.mp hend
      obtain rfl := Parser.expect_eq_ok.mp hopen
      obtain ⟨hisWord, rfl⟩ := Parser.of_word_eq_ok [';'] (by simp) hname
      obtain rfl := Parser.expect_eq_ok.mp hclose
      obtain ⟨rfl, rfl⟩ := Parser.pure_eq_ok.mp hpure
      refine ⟨'L' :: name ++ [';'], ⟨rfl, ⟨Nat.zero_le _, ?_⟩, by simp [descriptor]⟩, by simp⟩
      rintro _ ⟨rfl⟩
      rwa [String.toList_ofList]

theorem of_parseDimensions_eq_ok {input rest : List Char} (h : parseDimensions input = .ok (n, rest)) :
    input = List.replicate n '[' ++ rest := by
  obtain ⟨rfl, rfl⟩ : (input.takeWhile (· == '[')).length = n ∧
      input.dropWhile (· == '[') = rest := by simpa [parseDimensions] using h
  have hbrackets : input.takeWhile (· == '[') =
      List.replicate (input.takeWhile (· == '[')).length '[' :=
    List.eq_replicate_of_mem fun c hc => by simpa using List.mem_takeWhile_imp hc
  rw [← hbrackets, List.takeWhile_append_dropWhile]

/-- A type has a descriptor if its element has one and its dimensions are few enough. -/
theorem mem_described_arrays {text : List Char} (hn : n ≤ 255) (h : text ∈ t.plain) :
    List.replicate n '[' ++ text ∈ (arrays n t).described := by
  obtain ⟨hzero, ⟨-, hname⟩, rfl⟩ := h
  have hdimensions : (arrays n t).dimensions = n := by rw [dimensions_arrays, hzero, Nat.zero_add]
  refine ⟨⟨hdimensions.trans_le hn, ?_⟩, ?_⟩
  · unfold objectName?
    rwa [element_arrays]
  · have helement : t.element = t := by
      cases t with
      | base type => rfl
      | object internal => rfl
      | array component => cases hzero
    rw [descriptor_eq (arrays n t), hdimensions, element_arrays, helement]

theorem descriptor_element_mem_plain (h : t.Describable) :
    t.element.descriptor ∈ t.element.plain := by
  refine ⟨dimensions_element t, ⟨?_, ?_⟩, rfl⟩
  · simp [dimensions_element]
  · unfold objectName?
    rw [element_element]
    exact h.2

theorem parser_reads {text : List Char} (h : text ∈ t.described) (rest : List Char) :
    FieldType.parser.Reads text rest t := by
  obtain ⟨hdescribable, rfl⟩ := h
  have hplain := descriptor_element_mem_plain hdescribable
  obtain ⟨c, hc, hbracket⟩ := head_plain hplain
  have hhead : (t.element.descriptor ++ rest).head? ≠ some '[' := by
    rw [List.head?_append, hc]
    simpa using hbracket
  rw [descriptor_eq]
  apply (parseDimensions_reads t.dimensions hhead).bind
  have hmax : ¬ t.dimensions > maxDimensions := Nat.not_lt.mpr hdescribable.1
  rw [if_neg hmax]
  have hread := (parseElement_reads hplain rest).bind_pure (arrays t.dimensions)
  rwa [arrays_element] at hread

theorem parser_takes : FieldType.parser.Takes described := by
  intro input t rest h
  obtain ⟨n, _, hdimensions, hn⟩ := Parser.bind_eq_ok.mp h
  obtain rfl := of_parseDimensions_eq_ok hdimensions
  split at hn
  · exact absurd hn Parser.fail_ne_ok
  · next hmax =>
    obtain ⟨element, _, helement, hpure⟩ := Parser.bind_eq_ok.mp hn
    obtain ⟨rfl, rfl⟩ := Parser.pure_eq_ok.mp hpure
    obtain ⟨text, htext, rfl⟩ := parseElement_takes helement
    exact ⟨List.replicate n '[' ++ text, mem_described_arrays (Nat.not_lt.mp hmax) htext,
      (List.append_assoc ..).symm⟩

theorem parse_eq_ok_iff (text : String) (t : FieldType) :
    FieldType.parse text = .ok t ↔ t.Describable ∧ text.toList = t.descriptor := by
  have hall : Parser.parseAll FieldType.parser text = .ok t ↔ text.toList ∈ t.described :=
    Parser.parseAll_eq_ok_iff parser_takes fun t text h => parser_reads h []
  show _ ↔ text.toList ∈ t.described
  rw [← hall]
  unfold FieldType.parse
  split <;> next heq => simp [heq]

theorem eq_of_parse_eq_error {text : String} {e : DecodeError}
    (h : FieldType.parse text = .error e) : e = .invalidDescriptor text := by
  unfold FieldType.parse at h
  split at h
  · cases h
  · exact (Except.error.inj h).symm

/-- A descriptor starts neither like the end of the parameters nor like `void`. -/
theorem head_described {text : List Char} (h : text ∈ t.described) :
    ∃ c ∈ text.head?, c ≠ ')' ∧ c ≠ 'V' := by
  obtain ⟨-, rfl⟩ := h
  cases t with
  | base type => cases type <;> exact ⟨_, rfl, by decide, by decide⟩
  | object internal => exact ⟨'L', rfl, by decide, by decide⟩
  | array component => exact ⟨'[', rfl, by decide, by decide⟩

end FieldType

namespace MethodDescriptor

variable {d : MethodDescriptor}

/-- The types of the parameters and the return type, if there is one. -/
def types (d : MethodDescriptor) : List FieldType := d.params ++ d.returns.toList

/-- The limits of the format, which hold for each type on its own. -/
def Describable (d : MethodDescriptor) : Prop := ∀ t ∈ d.types, t.Describable

/-- The descriptor of a method that has one. -/
def described : MethodDescriptor → Language Char := Parser.written Describable descriptor

/-- The return type behind the parameters. -/
def returned : Option FieldType → Language Char
  | none => {['V']}
  | some t => t.described

theorem parseReturn_reads {returns : Option FieldType} {text : List Char}
    (h : text ∈ returned returns) (rest : List Char) : parseReturn.Reads text rest returns := by
  cases returns with
  | none =>
    obtain rfl : text = ['V'] := h
    apply (Parser.eat_reads 'V' rest).bind_nil
    exact Parser.Reads.pure none
  | some t =>
    obtain ⟨c, hc, -, hne⟩ := FieldType.head_described h
    apply (Parser.eat_reads_in_front hc hne rest).bind_look
    exact (FieldType.parser_reads h rest).bind_pure some

theorem parseReturn_takes : parseReturn.Takes returned := by
  intro input returns rest h
  obtain ⟨void, _, heat, htype⟩ := Parser.bind_eq_ok.mp h
  cases void with
  | true =>
    obtain rfl := Parser.eat_eq_ok_true.mp heat
    obtain ⟨rfl, rfl⟩ := Parser.pure_eq_ok.mp htype
    exact ⟨['V'], rfl, rfl⟩
  | false =>
    obtain ⟨-, rfl⟩ := Parser.eat_eq_ok_false.mp heat
    obtain ⟨t, _, ht, hpure⟩ := Parser.bind_eq_ok.mp htype
    obtain ⟨rfl, rfl⟩ := Parser.pure_eq_ok.mp hpure
    exact FieldType.parser_takes ht

/-- A descriptor consists of the descriptors of the parameters in parentheses and of that of the
return type. -/
theorem mem_described_iff {text : List Char} : text ∈ d.described ↔
    ∃ params ∈ (d.params.map FieldType.described).prod, ∃ returns ∈ returned d.returns,
      text = '(' :: params ++ ')' :: returns := by
  obtain ⟨params, returns⟩ := d
  constructor
  · rintro ⟨hall, rfl⟩
    have hparams : ∀ t ∈ params, t.Describable := fun t ht => hall t (by simp [types, ht])
    refine ⟨params.flatMap FieldType.descriptor, Parser.mem_prod_written.mpr ⟨hparams, rfl⟩, _, ?_,
      rfl⟩
    cases returns with
    | none => rfl
    | some t => exact ⟨hall t (by simp [types]), rfl⟩
  · rintro ⟨_, hwritten, text, htext, rfl⟩
    obtain ⟨hparams, rfl⟩ := Parser.mem_prod_written.mp hwritten
    cases returns with
    | none =>
      obtain rfl : text = ['V'] := htext
      exact ⟨by simpa [Describable, types] using hparams, rfl⟩
    | some t =>
      obtain ⟨ht, rfl⟩ := htext
      refine ⟨fun s hs => ?_, rfl⟩
      rcases List.mem_append.mp hs with hs | hs
      · exact hparams s hs
      · obtain rfl : s = t := by simpa using hs
        exact ht

theorem parser_reads {text : List Char} (h : text ∈ d.described) (rest : List Char) :
    parser.Reads text rest d := by
  obtain ⟨params, hparams, returns, hreturns, rfl⟩ := mem_described_iff.mp h
  have hstart : ∀ t ∈ d.params, ∀ text ∈ t.described, ∃ c ∈ text.head?, c ≠ ')' := by
    intro t _ text htext
    obtain ⟨c, hc, hne, -⟩ := FieldType.head_described htext
    exact ⟨c, hc, hne⟩
  have huntil : (Parser.untilChar ')' FieldType.parser).Reads (params ++ [')']) (returns ++ rest)
      d.params :=
    Parser.untilChar_reads hstart (fun t _ text htext => FieldType.parser_reads htext) hparams
  have htext : '(' :: params ++ ')' :: returns = ['('] ++ (params ++ [')'] ++ returns) := by simp
  rw [htext]
  apply (Parser.expect_reads '(' _).bind
  apply huntil.bind
  exact (parseReturn_reads hreturns rest).bind_pure (MethodDescriptor.mk d.params)

theorem parser_takes : parser.Takes described := by
  intro input d rest h
  obtain ⟨_, _, hopen, hinside⟩ := Parser.bind_eq_ok.mp h
  obtain ⟨params, _, hparams, hbehind⟩ := Parser.bind_eq_ok.mp hinside
  obtain ⟨returns, _, hreturns, hpure⟩ := Parser.bind_eq_ok.mp hbehind
  obtain ⟨rfl, rfl⟩ := Parser.pure_eq_ok.mp hpure
  obtain rfl := Parser.expect_eq_ok.mp hopen
  obtain ⟨_, hclosed, rfl⟩ := Parser.untilChar_takes FieldType.parser_takes hparams
  obtain ⟨text, htext, _, rfl, rfl⟩ := Language.mem_mul.mp hclosed
  obtain ⟨last, hlast, rfl⟩ := parseReturn_takes hreturns
  exact ⟨'(' :: text ++ ')' :: last, mem_described_iff.mpr ⟨text, htext, last, hlast, rfl⟩, by simp⟩

theorem parse_eq_ok_iff (text : String) (d : MethodDescriptor) :
    MethodDescriptor.parse text = .ok d ↔ d.Describable ∧ text.toList = d.descriptor := by
  have hall : Parser.parseAll parser text = .ok d ↔ text.toList ∈ d.described :=
    Parser.parseAll_eq_ok_iff parser_takes fun d text h => parser_reads h []
  show _ ↔ text.toList ∈ d.described
  rw [← hall]
  unfold MethodDescriptor.parse
  split <;> next heq => simp [heq]

theorem eq_of_parse_eq_error {text : String} {e : DecodeError}
    (h : MethodDescriptor.parse text = .error e) : e = .invalidDescriptor text := by
  unfold MethodDescriptor.parse at h
  split at h
  · cases h
  · exact (Except.error.inj h).symm

end MethodDescriptor

/-- Descriptors are read exactly as they are written: the accepted texts are the descriptors within
the limits of the format. -/
theorem descriptors_read_exactly :
    ReadsExactly FieldType.parse FieldType.Describable FieldType.descriptor ∧
      ReadsExactly MethodDescriptor.parse MethodDescriptor.Describable MethodDescriptor.descriptor :=
  ⟨.of_ok_iff FieldType.parse_eq_ok_iff fun _ _ => FieldType.eq_of_parse_eq_error,
    .of_ok_iff MethodDescriptor.parse_eq_ok_iff fun _ _ => MethodDescriptor.eq_of_parse_eq_error⟩

end Rebuild
