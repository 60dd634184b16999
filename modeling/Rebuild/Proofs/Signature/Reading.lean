import Mathlib
import Rebuild.Proofs.Signature.Acceptance

/-! Reading undoes writing for signatures. Main statement: a signature whose names are words, whose
type parameters have bounds and whose types nest to the limit at most is read back from its text. -/
namespace Rebuild

open Text (Parser IsWord)

/-! ## Signatures that can be written -/

/-- The names end in front of the marks behind them, and the types in the arguments have some
property. -/
def ClassType.Writable (inner : ReferenceType → Prop) (c : ClassType ReferenceType) : Prop :=
  (∀ segment ∈ c.segments, IsWord ['<', ';', '.'] segment.name.toList) ∧
    ∀ arg ∈ c.args, ∀ type ∈ arg.type?, inner type

instance (inner : ReferenceType → Prop) [DecidablePred inner] (c : ClassType ReferenceType) :
    Decidable (c.Writable inner) :=
  inferInstanceAs (Decidable (_ ∧ _))

def ValueType.Writable (inner : ReferenceType → Prop) : ValueType ReferenceType → Prop
  | .base _ => True
  | .reference type => inner type

instance (inner : ReferenceType → Prop) [DecidablePred inner] :
    DecidablePred (ValueType.Writable inner)
  | .base _ => isTrue trivial
  | .reference type => inferInstanceAs (Decidable (inner type))

namespace ReferenceType

/-- Types that nest at most `depth` deep. Arrays, class types and type variables count, base types
do not. -/
def WritableUpTo : (depth : Nat) → ReferenceType → Prop
  | 0, _ => False
  | depth + 1, .ofClass type => type.Writable (WritableUpTo depth)
  | depth + 1, .array component => component.Writable (WritableUpTo depth)
  | _ + 1, .typeVariable name => IsWord [';'] name.toList

def Writable : ReferenceType → Prop := WritableUpTo 255

instance decidableWritableUpTo : (depth : Nat) → DecidablePred (WritableUpTo depth)
  | 0, _ => isFalse id
  | depth + 1, .ofClass type =>
    haveI := decidableWritableUpTo depth
    inferInstanceAs (Decidable (type.Writable (WritableUpTo depth)))
  | depth + 1, .array component =>
    haveI := decidableWritableUpTo depth
    inferInstanceAs (Decidable (component.Writable (WritableUpTo depth)))
  | _ + 1, .typeVariable name => inferInstanceAs (Decidable (IsWord [';'] name.toList))

instance : DecidablePred Writable := decidableWritableUpTo 255

end ReferenceType

/-- Without a bound, the next parameter could be taken for the class bound. -/
@[mk_iff]
structure TypeParameter.Writable (p : TypeParameter) : Prop where
  name : IsWord [':', '>', ';'] p.name.toList
  bounded : p.bounds ≠ []
  bounds : ∀ bound ∈ p.bounds, bound.Writable

instance (p : TypeParameter) : Decidable p.Writable :=
  decidable_of_iff' _ (TypeParameter.writable_iff p)

@[mk_iff]
structure ClassSignature.Writable (s : ClassSignature) : Prop where
  typeParams : ∀ p ∈ s.typeParams, p.Writable
  superClass : s.superClass.Writable ReferenceType.Writable
  interfaces : ∀ type ∈ s.interfaces, type.Writable ReferenceType.Writable

instance (s : ClassSignature) : Decidable s.Writable :=
  decidable_of_iff' _ (ClassSignature.writable_iff s)

@[mk_iff]
structure MethodSignature.Writable (s : MethodSignature) : Prop where
  typeParams : ∀ p ∈ s.typeParams, p.Writable
  params : ∀ type ∈ s.params, type.Writable ReferenceType.Writable
  returns : ∀ type ∈ s.returns, type.Writable ReferenceType.Writable
  thrown : ∀ type ∈ s.thrown, type.Writable

instance (s : MethodSignature) : Decidable s.Writable :=
  decidable_of_iff' _ (MethodSignature.writable_iff s)

/-! ## How spellings start -/

theorem of_mem_angleList {items : List (Language Char)} {text : List Char}
    (h : text ∈ angleList items) :
    (∃ inside ∈ items.prod, text = '<' :: inside ++ ['>']) ∨ items = [] ∧ text = [] := by
  cases items with
  | nil =>
    rcases h with rfl | rfl
    · exact .inr ⟨rfl, rfl⟩
    · exact .inl ⟨[], rfl, rfl⟩
  | cons item items =>
    obtain ⟨_, hopened, _, rfl, rfl⟩ := Language.mem_mul.mp h
    obtain ⟨_, rfl, inside, hinside, rfl⟩ := Language.mem_mul.mp hopened
    exact .inl ⟨inside, hinside, rfl⟩

/-- A class type stands between its first letter and a semicolon. -/
theorem ClassType.of_mem_spellings {c : ClassType ReferenceType} {text : List Char}
    (h : text ∈ c.spellings) : ∃ outer ∈ c.outer.spellings,
      ∃ nested ∈ (c.nested.map fun segment => {['.']} * segment.spellings).prod,
        text = ['L'] ++ (outer ++ (nested ++ [';'])) := by
  obtain ⟨first, others⟩ := c
  obtain ⟨_, hsegments, _, rfl, rfl⟩ := Language.mem_mul.mp h
  obtain ⟨_, houter, nested, hnested, rfl⟩ := Language.mem_mul.mp hsegments
  obtain ⟨_, rfl, outer, hfirst, rfl⟩ := Language.mem_mul.mp houter
  rw [ClassSegment.eachNested_eq] at hnested
  exact ⟨outer, hfirst, nested, hnested, by simp⟩

theorem ReferenceType.head_spellings {type : ReferenceType} {text : List Char}
    (h : text ∈ type.spellings) : ∃ c ∈ text.head?, c ∈ ['L', 'T', '['] := by
  cases type with
  | ofClass c =>
    obtain ⟨_, -, _, -, rfl⟩ := ClassType.of_mem_spellings h
    exact ⟨'L', rfl, by decide⟩
  | array component =>
    obtain ⟨_, rfl, _, -, rfl⟩ := Language.mem_mul.mp h
    exact ⟨'[', rfl, by decide⟩
  | typeVariable name =>
    obtain rfl : text = 'T' :: name.toList ++ [';'] := h
    exact ⟨'T', rfl, by decide⟩

theorem TypeArgument.head_spellings {arg : TypeArgument ReferenceType} {text : List Char}
    (h : text ∈ arg.spellings) : ∃ c ∈ text.head?, c ≠ '>' := by
  cases arg with
  | any =>
    obtain rfl : text = ['*'] := h
    exact ⟨'*', rfl, by decide⟩
  | exact type =>
    obtain ⟨c, hc, hmem⟩ := ReferenceType.head_spellings h
    refine ⟨c, hc, ?_⟩
    rintro rfl
    simp at hmem
  | upper bound =>
    obtain ⟨_, rfl, _, -, rfl⟩ := Language.mem_mul.mp h
    exact ⟨'+', rfl, by decide⟩
  | lower bound =>
    obtain ⟨_, rfl, _, -, rfl⟩ := Language.mem_mul.mp h
    exact ⟨'-', rfl, by decide⟩

theorem ValueType.head_spellings {type : ValueType ReferenceType} {text : List Char}
    (h : text ∈ type.spellings) : ∃ c ∈ text.head?, c ≠ ')' ∧ c ≠ 'V' := by
  cases type with
  | base type =>
    obtain rfl : text = [type.letter] := h
    cases type <;> exact ⟨_, rfl, by decide, by decide⟩
  | reference type =>
    obtain ⟨c, hc, hmem⟩ := ReferenceType.head_spellings h
    refine ⟨c, hc, ?_, ?_⟩ <;> rintro rfl <;> simp at hmem

/-! ## Types -/

section Parts

variable {type : Parser ReferenceType} {inner : ReferenceType → Prop}
  (htype : ∀ t, inner t → ∀ text ∈ t.spellings, ∀ rest, type.Reads text rest t)
include htype

theorem TypeArgument.parser_reads {arg : TypeArgument ReferenceType} {text : List Char}
    (harg : ∀ t ∈ arg.type?, inner t) (htext : text ∈ arg.spellings) (rest : List Char) :
    (TypeArgument.parser type).Reads text rest arg := by
  cases arg with
  | any =>
    obtain rfl : text = ['*'] := htext
    exact (Parser.eat_reads '*' rest).bind_nil rfl
  | exact t =>
    obtain ⟨c, hc, hmem⟩ := ReferenceType.head_spellings htext
    have hother {sign : Char} (hsign : sign ∉ ['L', 'T', '[']) :
        (Parser.eat sign).Reads [] (text ++ rest) false :=
      Parser.eat_reads_in_front hc (ne_of_mem_of_not_mem hmem hsign) rest
    apply (hother (by decide)).bind_look
    apply (hother (by decide)).bind_look
    apply (hother (by decide)).bind_look
    exact (htype t (harg t rfl) text htext rest).map exact
  | upper bound =>
    obtain ⟨_, rfl, written, hwritten, rfl⟩ := Language.mem_mul.mp htext
    apply (Parser.eat_reads_other (by simp)).bind_look
    apply (Parser.eat_reads '+' _).bind
    exact (htype bound (harg bound rfl) written hwritten rest).map upper
  | lower bound =>
    obtain ⟨_, rfl, written, hwritten, rfl⟩ := Language.mem_mul.mp htext
    apply (Parser.eat_reads_other (by simp)).bind_look
    apply (Parser.eat_reads_other (by simp)).bind_look
    apply (Parser.eat_reads '-' _).bind
    exact (htype bound (harg bound rfl) written hwritten rest).map lower

theorem ClassSegment.parser_reads {segment : ClassSegment ReferenceType} {text rest : List Char}
    (hname : IsWord ['<', ';', '.'] segment.name.toList)
    (hargs : ∀ arg ∈ segment.args, ∀ t ∈ arg.type?, inner t) (htext : text ∈ segment.spellings)
    (hrest : ∃ c ∈ rest.head?, c = '.' ∨ c = ';') :
    (ClassSegment.parser type).Reads text rest segment := by
  obtain ⟨name, args⟩ := segment
  obtain ⟨_, rfl, list, hlist, rfl⟩ := Language.mem_mul.mp htext
  obtain ⟨c, hc, hmark⟩ := hrest
  obtain ⟨tail, rfl⟩ := List.head?_eq_some_iff.mp hc
  have hword {later : List Char} (hlater : ∀ d ∈ later.head?, d ∈ ['<', ';', '.']) :
      (Parser.word fun c => c == '<' || c == ';' || c == '.').Reads name.toList later
        name.toList :=
    Parser.word_reads (by simp [or_assoc]) hname hlater
  rcases of_mem_angleList hlist with ⟨inside, hinside, rfl⟩ | ⟨hempty, rfl⟩
  · rw [TypeArgument.each_eq] at hinside
    have huntil : (Parser.untilChar '>' (TypeArgument.parser type)).Reads (inside ++ ['>'])
        (c :: tail) args :=
      Parser.untilChar_reads (fun arg _ text htext => TypeArgument.head_spellings htext)
        (fun arg harg text htext => TypeArgument.parser_reads htype (hargs arg harg) htext) hinside
    apply (hword (by simp)).bind
    apply (Parser.eat_reads '<' _).bind
    rw [String.ofList_toList]
    exact huntil.bind_pure (ClassSegment.mk name)
  · obtain rfl : args = [] := by simpa [TypeArgument.each_eq] using hempty
    apply (hword (by rcases hmark with rfl | rfl <;> simp)).bind
    apply (Parser.eat_reads_other (by rcases hmark with rfl | rfl <;> simp)).bind_look
    rw [String.ofList_toList]
    rfl

theorem ClassType.parser_reads {c : ClassType ReferenceType} {text : List Char}
    (hc : c.Writable inner) (htext : text ∈ c.spellings) (rest : List Char) :
    (ClassType.parser type).Reads text rest c := by
  obtain ⟨hnames, hargs⟩ := hc
  have hsegment {segment : ClassSegment ReferenceType} (hmem : segment ∈ c.segments)
      {text later : List Char} (htext : text ∈ segment.spellings)
      (hlater : ∃ d ∈ later.head?, d = '.' ∨ d = ';') :
      (ClassSegment.parser type).Reads text later segment :=
    ClassSegment.parser_reads htype (hnames segment hmem)
      (fun arg harg => hargs arg (List.mem_flatMap.mpr ⟨segment, hmem, harg⟩)) htext hlater
  obtain ⟨outer, houter, nested, hnested, rfl⟩ := ClassType.of_mem_spellings htext
  have hend : ∃ d ∈ (nested ++ [';'] ++ rest).head?, d = '.' ∨ d = ';' := by
    rcases Parser.head_announced hnested with hdot | ⟨-, rfl⟩
    · exact ⟨'.', by rw [List.append_assoc, List.head?_append, hdot]; rfl, .inl rfl⟩
    · exact ⟨';', rfl, .inr rfl⟩
  have hmany : (Parser.many '.' (ClassSegment.parser type)).Reads nested ([';'] ++ rest)
      c.nested := by
    refine Parser.many_reads (by simp) (fun segment hmem text htext later hlater => ?_) hnested
    refine hsegment (List.mem_cons_of_mem _ hmem) htext ?_
    rcases hlater with hdot | rfl
    · exact ⟨'.', hdot, .inl rfl⟩
    · exact ⟨';', rfl, .inr rfl⟩
  apply (Parser.expect_reads 'L' _).bind
  apply (hsegment List.mem_cons_self houter hend).bind
  apply hmany.bind
  apply (Parser.expect_reads ';' rest).bind_nil
  rfl

theorem ValueType.parser_reads {t : ValueType ReferenceType} {text : List Char}
    (ht : t.Writable inner) (htext : text ∈ t.spellings) (rest : List Char) :
    (ValueType.parser type).Reads text rest t := by
  cases t with
  | base primitive =>
    obtain rfl : text = [primitive.letter] := htext
    apply (Parser.peek?_reads _).bind_look
    simp only [List.cons_append, List.head?_cons, Option.bind_some, BaseType.ofLetter?_letter]
    exact (Parser.expect_reads primitive.letter rest).bind_nil rfl
  | reference t =>
    obtain ⟨c, hc, hmem⟩ := ReferenceType.head_spellings htext
    have hnone : BaseType.ofLetter? c = none := by
      simp only [List.mem_cons, List.not_mem_nil, or_false] at hmem
      rcases hmem with rfl | rfl | rfl <;> rfl
    have hhead : (text ++ rest).head? = some c := by
      rw [List.head?_append, hc]
      rfl
    apply (Parser.peek?_reads _).bind_look
    simp only [hhead, Option.bind_some, hnone]
    exact (htype t ht text htext rest).map ValueType.reference

end Parts

namespace ReferenceType

theorem parserUpTo_reads {depth : Nat} {type : ReferenceType} {text : List Char}
    (h : type.WritableUpTo depth) (htext : text ∈ type.spellings) (rest : List Char) :
    (parserUpTo depth).Reads text rest type := by
  induction depth generalizing type text rest with
  | zero => exact absurd h id
  | succ depth ih =>
    have hinside : ∀ t : ReferenceType, t.WritableUpTo depth → ∀ text ∈ t.spellings, ∀ rest,
        (parserUpTo depth).Reads text rest t := fun t ht text htext rest => ih ht htext rest
    apply (Parser.peek?_reads _).bind_look
    cases type with
    | ofClass c =>
      have hclass := ClassType.parser_reads hinside h htext rest
      obtain ⟨_, -, _, -, rfl⟩ := ClassType.of_mem_spellings htext
      exact hclass.map ofClass
    | array component =>
      obtain ⟨_, rfl, inside, hcomponent, rfl⟩ := Language.mem_mul.mp htext
      apply (Parser.expect_reads '[' _).bind
      exact (ValueType.parser_reads hinside h hcomponent rest).map array
    | typeVariable name =>
      obtain rfl : text = 'T' :: name.toList ++ [';'] := htext
      have hword : (Parser.word (· == ';')).Reads name.toList ([';'] ++ rest) name.toList :=
        Parser.word_reads (by simp) h (by simp)
      have htext : 'T' :: name.toList ++ [';'] = ['T'] ++ (name.toList ++ [';']) := rfl
      rw [htext]
      apply (Parser.expect_reads 'T' _).bind
      apply hword.bind
      apply (Parser.expect_reads ';' rest).bind_nil
      rw [String.ofList_toList]
      rfl

theorem parser_reads {type : ReferenceType} {text : List Char} (h : type.Writable)
    (htext : text ∈ type.spellings) (rest : List Char) :
    ReferenceType.parser.Reads text rest type :=
  parserUpTo_reads h htext rest

theorem all_read : ∀ type : ReferenceType, type.Writable → ∀ text ∈ type.spellings, ∀ rest,
    ReferenceType.parser.Reads text rest type :=
  fun _ h _ htext rest => parser_reads h htext rest

theorem parse_signature {type : ReferenceType} (h : type.Writable) :
    parse (String.ofList type.signature) = .ok type :=
  signatureError_eq_ok.mpr (parser_reads h type.standard.mem []).parseAll

end ReferenceType

/-- The types of parameters, up to the parenthesis behind them. -/
theorem ValueType.list_reads {types : List (ValueType ReferenceType)} {text : List Char}
    (htypes : ∀ t ∈ types, t.Writable ReferenceType.Writable)
    (htext : text ∈ (types.map spellings).prod) (rest : List Char) :
    (Parser.untilChar ')' (ValueType.parser ReferenceType.parser)).Reads (text ++ [')']) rest
      types := by
  have hstart : ∀ t ∈ types, ∀ text ∈ t.spellings, ∃ c ∈ text.head?, c ≠ ')' := by
    intro t _ text htext
    obtain ⟨c, hc, hne, -⟩ := head_spellings htext
    exact ⟨c, hc, hne⟩
  exact Parser.untilChar_reads hstart
    (fun t ht text htext => parser_reads ReferenceType.all_read (htypes t ht) htext) htext

namespace TypeParameter

variable {p : TypeParameter}

theorem parseClassBound_reads {bound : Option ReferenceType} {text rest : List Char}
    (hbound : ∀ type ∈ bound, type.Writable)
    (htext : text ∈ bound.elim 1 ReferenceType.spellings)
    (hrest : bound = none → ∃ c ∈ rest.head?, c ∉ ['L', 'T', '[']) :
    parseClassBound.Reads text rest bound := by
  apply (Parser.peek?_reads _).bind_look
  cases bound with
  | none =>
    obtain rfl : text = [] := htext
    obtain ⟨c, hc, hother⟩ := hrest rfl
    obtain ⟨tail, rfl⟩ := List.head?_eq_some_iff.mp hc
    split
    · next heq => simp_all
    · next heq => simp_all
    · next heq => simp_all
    · rfl
  | some type =>
    have hread := (ReferenceType.parser_reads (hbound type rfl) htext rest).map some
    obtain ⟨c, hc, hmem⟩ := ReferenceType.head_spellings htext
    obtain ⟨tail, rfl⟩ := List.head?_eq_some_iff.mp hc
    simp only [List.mem_cons, List.not_mem_nil, or_false] at hmem
    rcases hmem with rfl | rfl | rfl <;> exact hread

theorem parser_reads (hp : p.Writable) {text : List Char} (htext : text ∈ p.spellings)
    {rest : List Char} (hrest : rest.head? ≠ some ':') : parser.Reads text rest p := by
  obtain ⟨name, classBound, interfaceBounds⟩ := p
  obtain ⟨hname, hbounded, hbounds⟩ := hp
  obtain ⟨_, hfront, others, hothers, rfl⟩ := Language.mem_mul.mp htext
  obtain ⟨_, rfl, _, hcolon, rfl⟩ := Language.mem_mul.mp hfront
  obtain ⟨_, rfl, bound, hbound, rfl⟩ := Language.mem_mul.mp hcolon
  have hword : (Parser.word fun c => c == ':' || c == '>' || c == ';').Reads name.toList
      ([':'] ++ (bound ++ others) ++ rest) name.toList :=
    Parser.word_reads (by simp [or_assoc]) hname (by simp)
  have hclass : parseClassBound.Reads bound (others ++ rest) classBound := by
    apply parseClassBound_reads (fun type h => hbounds type (by simp_all [bounds])) hbound
    rintro rfl
    -- Only the colon in front of an interface bound tells that there is no class bound.
    rcases Parser.head_announced hothers with hcolon | ⟨rfl, -⟩
    · exact ⟨':', by rw [List.head?_append, hcolon]; rfl, by decide⟩
    · exact absurd rfl hbounded
  have hinterfaces : (Parser.many ':' ReferenceType.parser).Reads others rest interfaceBounds :=
    Parser.many_reads hrest (fun type h text htext later _ =>
      ReferenceType.parser_reads (hbounds type (by simp [bounds, h])) htext later) hothers
  have htext : name.toList ++ ([':'] ++ bound) ++ others =
      name.toList ++ ([':'] ++ (bound ++ others)) := by simp
  rw [htext]
  apply hword.bind
  apply (Parser.expect_reads ':' _).bind
  apply hclass.bind
  rw [String.ofList_toList]
  exact hinterfaces.bind_pure (TypeParameter.mk name classBound)

theorem head_spellings (hp : p.Writable) {text : List Char} (h : text ∈ p.spellings) :
    ∃ c ∈ text.head?, c ≠ '>' ∧ c ≠ ':' := by
  obtain ⟨hne, hmarks⟩ := hp.name
  obtain ⟨_, hfront, _, -, rfl⟩ := Language.mem_mul.mp h
  obtain ⟨_, rfl, _, -, rfl⟩ := Language.mem_mul.mp hfront
  obtain ⟨c, tail, hname⟩ := List.exists_cons_of_ne_nil hne
  have hc := hmarks c (by simp [hname])
  refine ⟨c, by simp [hname], ?_, ?_⟩ <;> rintro rfl <;> simp at hc

theorem listParser_reads {params : List TypeParameter} (hparams : ∀ p ∈ params, p.Writable)
    {text : List Char} (htext : text ∈ listSpellings params) {rest : List Char}
    (hrest : rest.head? ≠ some '<') : listParser.Reads text rest params := by
  rcases of_mem_angleList htext with ⟨inside, hinside, rfl⟩ | ⟨hempty, rfl⟩
  · apply (Parser.eat_reads '<' _).bind
    have hstart : ∀ p ∈ params, ∀ text ∈ p.spellings, ∃ c ∈ text.head?, c ≠ '>' ∧ c ≠ ':' :=
      fun p hp text htext => head_spellings (hparams p hp) htext
    refine Parser.untilChar_reads_followed (by decide) hstart
      (fun p hp text htext later hlater => ?_) hinside
    exact parser_reads (hparams p hp) htext fun heq => hlater ':' heq rfl
  · obtain rfl : params = [] := by simpa using hempty
    apply (Parser.eat_reads_other hrest).bind_look
    rfl

end TypeParameter

/-! ## Whole signatures -/

namespace ClassSignature

theorem parser_reads {s : ClassSignature} (hs : s.Writable) {text : List Char}
    (htext : text ∈ s.spellings) : parser.Reads text [] s := by
  obtain ⟨_, hhead, interfaces, hinterfaces, rfl⟩ := Language.mem_mul.mp htext
  obtain ⟨params, hparams, superClass, hsuper, rfl⟩ := Language.mem_mul.mp hhead
  have hclass : ∀ c : ClassType ReferenceType, c.Writable ReferenceType.Writable →
      ∀ text ∈ c.spellings, ∀ rest, (ClassType.parser ReferenceType.parser).Reads text rest c :=
    fun c hc text htext rest =>
      ClassType.parser_reads ReferenceType.all_read hc htext rest
  have hstart : (superClass ++ interfaces ++ []).head? ≠ some '<' := by
    obtain ⟨_, -, _, -, rfl⟩ := ClassType.of_mem_spellings hsuper
    simp
  have htoEnd : (Parser.toEnd (ClassType.parser ReferenceType.parser)).Reads interfaces []
      s.interfaces := by
    refine Parser.toEnd_reads (fun c _ text htext => ?_)
      (fun c hc => hclass c (hs.interfaces c hc)) hinterfaces
    obtain ⟨_, -, _, -, rfl⟩ := ClassType.of_mem_spellings htext
    simp
  rw [List.append_assoc]
  apply (TypeParameter.listParser_reads hs.typeParams hparams hstart).bind
  apply (hclass s.superClass hs.superClass superClass hsuper _).bind
  exact htoEnd.bind_pure (ClassSignature.mk s.typeParams s.superClass)

theorem parse_signature {s : ClassSignature} (hs : s.Writable) :
    parse (String.ofList s.signature) = .ok s :=
  signatureError_eq_ok.mpr (parser_reads hs s.standard.mem).parseAll

end ClassSignature

namespace MethodSignature

theorem parseReturn_reads {returns : Option (ValueType ReferenceType)} {text : List Char}
    (hreturns : ∀ type ∈ returns, type.Writable ReferenceType.Writable)
    (htext : text ∈ returns.elim {['V']} ValueType.spellings) (rest : List Char) :
    parseReturn.Reads text rest returns := by
  cases returns with
  | none =>
    obtain rfl : text = ['V'] := htext
    apply (Parser.eat_reads 'V' rest).bind_nil
    rfl
  | some type =>
    obtain ⟨c, hc, -, hne⟩ := ValueType.head_spellings htext
    apply (Parser.eat_reads_in_front hc hne rest).bind_look
    exact (ValueType.parser_reads ReferenceType.all_read (hreturns type rfl) htext rest).map some

theorem parser_reads {s : MethodSignature} (hs : s.Writable) {text : List Char}
    (htext : text ∈ s.spellings) : parser.Reads text [] s := by
  obtain ⟨_, hfront, thrown, hthrown, rfl⟩ := Language.mem_mul.mp htext
  obtain ⟨_, hhead, _, hclosed, rfl⟩ := Language.mem_mul.mp hfront
  obtain ⟨list, hlist, _, hopened, rfl⟩ := Language.mem_mul.mp hhead
  obtain ⟨_, rfl, params, hparams, rfl⟩ := Language.mem_mul.mp hopened
  obtain ⟨_, rfl, returns, hreturns, rfl⟩ := Language.mem_mul.mp hclosed
  have hmany : (Parser.many '^' ReferenceType.parser).Reads thrown [] s.thrown :=
    Parser.many_reads (by simp)
      (fun type htype text htext later _ =>
        ReferenceType.parser_reads (hs.thrown type htype) htext later) hthrown
  have htext : list ++ (['('] ++ params) ++ ([')'] ++ returns) ++ thrown =
      list ++ (['('] ++ (params ++ [')'] ++ (returns ++ thrown))) := by simp
  rw [htext]
  apply (TypeParameter.listParser_reads hs.typeParams hlist (by simp)).bind
  apply (Parser.expect_reads '(' _).bind
  apply (ValueType.list_reads hs.params hparams _).bind
  apply (parseReturn_reads hs.returns hreturns _).bind
  exact hmany.bind_pure (MethodSignature.mk s.typeParams s.params s.returns)

theorem parse_signature {s : MethodSignature} (hs : s.Writable) :
    parse (String.ofList s.signature) = .ok s :=
  signatureError_eq_ok.mpr (parser_reads hs s.standard.mem).parseAll

end MethodSignature

/-- Signatures of all three kinds are read back from their text. -/
theorem signatures_read_back :
    (∀ s : ClassSignature, s.Writable → ClassSignature.parse (String.ofList s.signature) = .ok s) ∧
      (∀ s : MethodSignature, s.Writable →
        MethodSignature.parse (String.ofList s.signature) = .ok s) ∧
      ∀ type : ReferenceType, type.Writable →
        ReferenceType.parse (String.ofList type.signature) = .ok type :=
  ⟨fun _ => ClassSignature.parse_signature, fun _ => MethodSignature.parse_signature,
    fun _ => ReferenceType.parse_signature⟩

theorem signatures_read_back_bounded :
    let key : ReferenceType := .typeVariable "K"
    let entry : ReferenceType := .ofClass ⟨⟨"p/Map", [.upper key, .any]⟩, [⟨"Entry", [.lower key]⟩]⟩
    let params : List TypeParameter :=
      [⟨"K", none, [.ofClass ⟨⟨"p/Comparable", [.exact key]⟩, []⟩]⟩, ⟨"V", some key, [entry]⟩]
    let s : ClassSignature := ⟨params, ⟨⟨"p/A", []⟩, []⟩, [⟨⟨"p/I", [.exact entry]⟩, []⟩]⟩
    let m : MethodSignature :=
      ⟨params, [.base .int, .reference (.array (.base .byte))], some (.reference entry), [key]⟩
    (s.Writable ∧ ClassSignature.parse (String.ofList s.signature) = .ok s) ∧
      (m.Writable ∧ MethodSignature.parse (String.ofList m.signature) = .ok m) ∧
      entry.Writable ∧ ReferenceType.parse (String.ofList entry.signature) = .ok entry := by
  intro key entry params s m
  have hs : s.Writable := by decide +kernel
  have hm : m.Writable := by decide +kernel
  have hentry : entry.Writable := by decide +kernel
  exact ⟨⟨hs, signatures_read_back.1 s hs⟩, ⟨hm, signatures_read_back.2.1 m hm⟩, hentry,
    signatures_read_back.2.2 entry hentry⟩

end Rebuild
