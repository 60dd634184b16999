import Mathlib
import Rebuild.Proofs.Signature.Spellings
import Rebuild.Signature.Parser

/-! Which texts are accepted as signatures. Main statement: each accepted text is a spelling of the
tree that it yields; two texts with the same tree differ in empty angle brackets only. -/
namespace Rebuild

open Text (Parser)

theorem mem_angleList {items : List (Language Char)} {text : List Char} (h : text ∈ items.prod) :
    '<' :: text ++ ['>'] ∈ angleList items := by
  cases items with
  | nil =>
    obtain rfl : text = [] := h
    exact .inr rfl
  | cons item items =>
    exact Language.append_mem_mul (Language.append_mem_mul (a := ['<']) rfl h) rfl

/-! ## Types -/

section Parts

variable {type : Parser ReferenceType} (htype : type.Takes ReferenceType.spellings)
include htype

theorem TypeArgument.parser_takes : (TypeArgument.parser type).Takes TypeArgument.spellings := by
  intro input arg rest h
  obtain ⟨star, _, hstar, hnoStar⟩ := Parser.bind_eq_ok.mp h
  cases star with
  | true =>
    obtain rfl := Parser.eat_eq_ok_true.mp hstar
    obtain ⟨rfl, rfl⟩ := Parser.pure_eq_ok.mp hnoStar
    exact ⟨['*'], rfl, rfl⟩
  | false =>
  obtain ⟨-, rfl⟩ := Parser.eat_eq_ok_false.mp hstar
  obtain ⟨plus, _, hplus, hnoPlus⟩ := Parser.bind_eq_ok.mp hnoStar
  cases plus with
  | true =>
    obtain rfl := Parser.eat_eq_ok_true.mp hplus
    obtain ⟨bound, hbound, rfl⟩ := Parser.map_eq_ok.mp hnoPlus
    obtain ⟨text, htext, rfl⟩ := htype hbound
    exact ⟨'+' :: text, Language.append_mem_mul (a := ['+']) rfl htext, rfl⟩
  | false =>
  obtain ⟨-, rfl⟩ := Parser.eat_eq_ok_false.mp hplus
  obtain ⟨minus, _, hminus, hnoMinus⟩ := Parser.bind_eq_ok.mp hnoPlus
  cases minus with
  | true =>
    obtain rfl := Parser.eat_eq_ok_true.mp hminus
    obtain ⟨bound, hbound, rfl⟩ := Parser.map_eq_ok.mp hnoMinus
    obtain ⟨text, htext, rfl⟩ := htype hbound
    exact ⟨'-' :: text, Language.append_mem_mul (a := ['-']) rfl htext, rfl⟩
  | false =>
    obtain ⟨-, rfl⟩ := Parser.eat_eq_ok_false.mp hminus
    obtain ⟨t, ht, rfl⟩ := Parser.map_eq_ok.mp hnoMinus
    exact htype ht

theorem ClassSegment.parser_takes : (ClassSegment.parser type).Takes ClassSegment.spellings := by
  intro input segment rest h
  obtain ⟨name, _, hname, hopen⟩ := Parser.bind_eq_ok.mp h
  obtain ⟨-, rfl⟩ := Parser.of_word_eq_ok ['<', ';', '.'] (by simp [or_assoc]) hname
  obtain ⟨opened, _, heat, hargs⟩ := Parser.bind_eq_ok.mp hopen
  cases opened with
  | true =>
    obtain rfl := Parser.eat_eq_ok_true.mp heat
    obtain ⟨args, _, huntil, hpure⟩ := Parser.bind_eq_ok.mp hargs
    obtain ⟨rfl, rfl⟩ := Parser.pure_eq_ok.mp hpure
    obtain ⟨_, hclosed, rfl⟩ := Parser.untilChar_takes (TypeArgument.parser_takes htype) huntil
    obtain ⟨text, htext, _, rfl, rfl⟩ := Language.mem_mul.mp hclosed
    rw [← TypeArgument.each_eq] at htext
    refine ⟨name ++ ('<' :: text ++ ['>']), ?_, by simp⟩
    rw [ClassSegment.spellings, String.toList_ofList]
    exact Language.append_mem_mul rfl (mem_angleList htext)
  | false =>
    obtain ⟨-, rfl⟩ := Parser.eat_eq_ok_false.mp heat
    obtain ⟨rfl, rfl⟩ := Parser.pure_eq_ok.mp hargs
    refine ⟨name ++ [], ?_, by simp⟩
    rw [ClassSegment.spellings, String.toList_ofList]
    exact Language.append_mem_mul rfl (.inl rfl)

theorem ClassType.parser_takes : (ClassType.parser type).Takes ClassType.spellings := by
  intro input c rest h
  obtain ⟨_, _, hopen, hsegments⟩ := Parser.bind_eq_ok.mp h
  obtain ⟨outer, _, houter, hbehind⟩ := Parser.bind_eq_ok.mp hsegments
  obtain ⟨nested, _, hnested, hend⟩ := Parser.bind_eq_ok.mp hbehind
  obtain ⟨_, _, hclose, hpure⟩ := Parser.bind_eq_ok.mp hend
  obtain ⟨rfl, rfl⟩ := Parser.pure_eq_ok.mp hpure
  obtain rfl := Parser.expect_eq_ok.mp hopen
  obtain rfl := Parser.expect_eq_ok.mp hclose
  obtain ⟨first, hfirst, rfl⟩ := ClassSegment.parser_takes htype houter
  obtain ⟨others, hothers, rfl⟩ := Parser.many_takes (ClassSegment.parser_takes htype) hnested
  have hnestedText : others ∈ (ClassSegment.eachNested nested).prod := by
    rwa [ClassSegment.eachNested_eq]
  refine ⟨['L'] ++ first ++ others ++ [';'], ?_, by simp⟩
  exact Language.append_mem_mul
    (Language.append_mem_mul (Language.append_mem_mul rfl hfirst) hnestedText) rfl

theorem ValueType.parser_takes : (ValueType.parser type).Takes ValueType.spellings := by
  intro input t rest h
  obtain ⟨first, _, hpeek, hfirst⟩ := Parser.bind_eq_ok.mp h
  obtain ⟨-, rfl⟩ := Parser.peek?_eq_ok.mp hpeek
  cases hletter : first.bind BaseType.ofLetter? with
  | some primitive =>
    simp only [hletter] at hfirst
    obtain ⟨_, _, hexpect, hpure⟩ := Parser.bind_eq_ok.mp hfirst
    obtain ⟨rfl, rfl⟩ := Parser.pure_eq_ok.mp hpure
    obtain rfl := Parser.expect_eq_ok.mp hexpect
    exact ⟨[primitive.letter], rfl, rfl⟩
  | none =>
    simp only [hletter] at hfirst
    obtain ⟨t, ht, rfl⟩ := Parser.map_eq_ok.mp hfirst
    exact htype ht

end Parts

namespace ReferenceType

theorem parserUpTo_takes (depth : Nat) : (parserUpTo depth).Takes spellings := by
  induction depth with
  | zero => exact fun input t rest h => absurd h Parser.fail_ne_ok
  | succ depth ih =>
    intro input t rest h
    obtain ⟨first, _, hpeek, hfirst⟩ := Parser.bind_eq_ok.mp h
    obtain ⟨-, rfl⟩ := Parser.peek?_eq_ok.mp hpeek
    split at hfirst
    · obtain ⟨c, hc, rfl⟩ := Parser.map_eq_ok.mp hfirst
      exact ClassType.parser_takes ih hc
    · obtain ⟨_, _, hopen, hword⟩ := Parser.bind_eq_ok.mp hfirst
      obtain ⟨name, _, hname, hend⟩ := Parser.bind_eq_ok.mp hword
      obtain ⟨_, _, hclose, hpure⟩ := Parser.bind_eq_ok.mp hend
      obtain ⟨rfl, rfl⟩ := Parser.pure_eq_ok.mp hpure
      obtain rfl := Parser.expect_eq_ok.mp hopen
      obtain ⟨-, rfl⟩ := Parser.of_word_eq_ok [';'] (by simp) hname
      obtain rfl := Parser.expect_eq_ok.mp hclose
      refine ⟨'T' :: name ++ [';'], ?_, by simp⟩
      rw [spellings, String.toList_ofList]
      rfl
    · obtain ⟨_, _, hopen, hinside⟩ := Parser.bind_eq_ok.mp hfirst
      obtain ⟨component, hcomponent, rfl⟩ := Parser.map_eq_ok.mp hinside
      obtain rfl := Parser.expect_eq_ok.mp hopen
      obtain ⟨text, htext, rfl⟩ := ValueType.parser_takes ih hcomponent
      exact ⟨'[' :: text, Language.append_mem_mul (a := ['[']) rfl htext, rfl⟩
    · exact absurd hfirst Parser.fail_ne_ok

theorem parser_takes : ReferenceType.parser.Takes spellings := parserUpTo_takes maxDepth

end ReferenceType

namespace TypeParameter

theorem parseClassBound_takes :
    parseClassBound.Takes fun bound => bound.elim 1 ReferenceType.spellings := by
  intro input bound rest h
  obtain ⟨first, _, hpeek, hfirst⟩ := Parser.bind_eq_ok.mp h
  obtain ⟨-, rfl⟩ := Parser.peek?_eq_ok.mp hpeek
  have hsome (hbound : (some <$> ReferenceType.parser) input = .ok (bound, rest)) :
      ∃ text ∈ bound.elim 1 ReferenceType.spellings, input = text ++ rest := by
    obtain ⟨type, htype, rfl⟩ := Parser.map_eq_ok.mp hbound
    exact ReferenceType.parser_takes htype
  split at hfirst
  · exact hsome hfirst
  · exact hsome hfirst
  · exact hsome hfirst
  · obtain ⟨rfl, rfl⟩ := Parser.pure_eq_ok.mp hfirst
    exact ⟨[], rfl, rfl⟩

theorem parser_takes : parser.Takes spellings := by
  intro input p rest h
  obtain ⟨name, _, hname, hafter⟩ := Parser.bind_eq_ok.mp h
  obtain ⟨_, _, hcolon, hbounds⟩ := Parser.bind_eq_ok.mp hafter
  obtain ⟨classBound, _, hclass, hinterfaces⟩ := Parser.bind_eq_ok.mp hbounds
  obtain ⟨interfaceBounds, _, hmany, hpure⟩ := Parser.bind_eq_ok.mp hinterfaces
  obtain ⟨rfl, rfl⟩ := Parser.pure_eq_ok.mp hpure
  obtain ⟨-, rfl⟩ := Parser.of_word_eq_ok [':', '>', ';'] (by simp [or_assoc]) hname
  obtain rfl := Parser.expect_eq_ok.mp hcolon
  obtain ⟨bound, hbound, rfl⟩ := parseClassBound_takes hclass
  obtain ⟨others, hothers, rfl⟩ := Parser.many_takes ReferenceType.parser_takes hmany
  refine ⟨name ++ ([':'] ++ bound) ++ others, ?_, by simp⟩
  rw [spellings, String.toList_ofList]
  exact Language.append_mem_mul
    (Language.append_mem_mul rfl (Language.append_mem_mul rfl hbound)) hothers

theorem listParser_takes : listParser.Takes listSpellings := by
  intro input params rest h
  obtain ⟨opened, _, heat, hparams⟩ := Parser.bind_eq_ok.mp h
  cases opened with
  | true =>
    obtain rfl := Parser.eat_eq_ok_true.mp heat
    obtain ⟨_, hclosed, rfl⟩ := Parser.untilChar_takes parser_takes hparams
    obtain ⟨text, htext, _, rfl, rfl⟩ := Language.mem_mul.mp hclosed
    exact ⟨'<' :: text ++ ['>'], mem_angleList htext, by simp⟩
  | false =>
    obtain ⟨-, rfl⟩ := Parser.eat_eq_ok_false.mp heat
    obtain ⟨rfl, rfl⟩ := Parser.pure_eq_ok.mp hparams
    exact ⟨[], .inl rfl, rfl⟩

end TypeParameter

/-! ## Whole signatures -/

theorem ClassSignature.parser_takes : ClassSignature.parser.Takes ClassSignature.spellings := by
  intro input s rest h
  obtain ⟨typeParams, _, hparams, hbehind⟩ := Parser.bind_eq_ok.mp h
  obtain ⟨superClass, _, hsuper, hinterfaces⟩ := Parser.bind_eq_ok.mp hbehind
  obtain ⟨interfaces, _, htoEnd, hpure⟩ := Parser.bind_eq_ok.mp hinterfaces
  obtain ⟨rfl, rfl⟩ := Parser.pure_eq_ok.mp hpure
  have hclass := ClassType.parser_takes ReferenceType.parser_takes
  obtain ⟨first, hfirst, rfl⟩ := TypeParameter.listParser_takes hparams
  obtain ⟨second, hsecond, rfl⟩ := hclass hsuper
  obtain ⟨third, hthird, rfl⟩ := Parser.toEnd_takes hclass htoEnd
  exact ⟨first ++ second ++ third,
    Language.append_mem_mul (Language.append_mem_mul hfirst hsecond) hthird, by simp⟩

namespace MethodSignature

theorem parseReturn_takes : parseReturn.Takes fun type => type.elim {['V']} ValueType.spellings := by
  intro input type rest h
  obtain ⟨void, _, heat, htype⟩ := Parser.bind_eq_ok.mp h
  cases void with
  | true =>
    obtain rfl := Parser.eat_eq_ok_true.mp heat
    obtain ⟨rfl, rfl⟩ := Parser.pure_eq_ok.mp htype
    exact ⟨['V'], rfl, rfl⟩
  | false =>
    obtain ⟨-, rfl⟩ := Parser.eat_eq_ok_false.mp heat
    obtain ⟨t, ht, rfl⟩ := Parser.map_eq_ok.mp htype
    exact ValueType.parser_takes ReferenceType.parser_takes ht

theorem parser_takes : parser.Takes spellings := by
  intro input s rest h
  obtain ⟨typeParams, _, hlist, hafter⟩ := Parser.bind_eq_ok.mp h
  obtain ⟨_, _, hopen, hinside⟩ := Parser.bind_eq_ok.mp hafter
  obtain ⟨params, _, huntil, hbehind⟩ := Parser.bind_eq_ok.mp hinside
  obtain ⟨returns, _, hreturns, hend⟩ := Parser.bind_eq_ok.mp hbehind
  obtain ⟨thrown, _, hmany, hpure⟩ := Parser.bind_eq_ok.mp hend
  obtain ⟨rfl, rfl⟩ := Parser.pure_eq_ok.mp hpure
  have hvalue := ValueType.parser_takes ReferenceType.parser_takes
  obtain ⟨first, hfirst, rfl⟩ := TypeParameter.listParser_takes hlist
  obtain rfl := Parser.expect_eq_ok.mp hopen
  obtain ⟨_, hclosed, rfl⟩ := Parser.untilChar_takes hvalue huntil
  obtain ⟨second, hsecond, _, rfl, rfl⟩ := Language.mem_mul.mp hclosed
  obtain ⟨third, hthird, rfl⟩ := parseReturn_takes hreturns
  obtain ⟨fourth, hfourth, rfl⟩ := Parser.many_takes ReferenceType.parser_takes hmany
  refine ⟨first ++ (['('] ++ second) ++ ([')'] ++ third) ++ fourth, ?_, by simp⟩
  have hparams : first ++ (['('] ++ second) ∈ TypeParameter.listSpellings typeParams *
      ({['(']} * (params.map ValueType.spellings).prod) :=
    Language.append_mem_mul hfirst (Language.append_mem_mul rfl hsecond)
  exact Language.append_mem_mul
    (Language.append_mem_mul hparams (Language.append_mem_mul rfl hthird)) hfourth

end MethodSignature

theorem signatureError_eq_ok {α : Type} {text : String} {result : Except Nat α} {a : α} :
    signatureError text result = .ok a ↔ result = .ok a := by
  cases result <;> simp [signatureError]

/-- Each accepted text spells its tree. Without empty angle brackets it is the text that the tree is
written as, and the only such text with that tree. -/
structure AcceptsSpellings {α : Type} (parse : String → Except DecodeError α)
    (spellings : α → Language Char) (written : α → List Char) : Prop where
  spelled : ∀ text a, parse text = .ok a → text.toList ∈ spellings a
  written : ∀ text a, parse text = .ok a → ¬ ['<', '>'] <:+: text.toList →
    text.toList = written a
  injective : ∀ text text' a, parse text = .ok a → parse text' = .ok a →
    ¬ ['<', '>'] <:+: text.toList → ¬ ['<', '>'] <:+: text'.toList → text = text'

theorem AcceptsSpellings.of_takes {α : Type} {parser : Parser α} {spellings : α → Language Char}
    {written : α → List Char} (htakes : parser.Takes spellings)
    (hstandard : ∀ a, Standard (spellings a) (written a)) :
    AcceptsSpellings (fun text => signatureError text (parser.parseAll text)) spellings written := by
  have hspelled : ∀ text a, signatureError text (parser.parseAll text) = .ok a →
      text.toList ∈ spellings a := by
    intro text a h
    obtain ⟨spelling, hspelling, heq⟩ :=
      htakes (Parser.parseAll_eq_ok.mp (signatureError_eq_ok.mp h))
    rwa [heq, List.append_nil]
  have hwritten : ∀ text a, signatureError text (parser.parseAll text) = .ok a →
      ¬ ['<', '>'] <:+: text.toList → text.toList = written a :=
    fun text a h => (hstandard a).eq _ (hspelled text a h)
  refine ⟨hspelled, hwritten, fun text text' a h h' hbare hbare' => ?_⟩
  apply String.ext
  rw [hwritten text a h hbare, hwritten text' a h' hbare']

/-- Nothing is accepted but the spellings of signatures, of all three kinds. -/
theorem accepted_signatures_spelled :
    AcceptsSpellings ClassSignature.parse ClassSignature.spellings ClassSignature.signature ∧
      AcceptsSpellings MethodSignature.parse MethodSignature.spellings MethodSignature.signature ∧
      AcceptsSpellings ReferenceType.parse ReferenceType.spellings ReferenceType.signature :=
  ⟨.of_takes ClassSignature.parser_takes ClassSignature.standard,
    .of_takes MethodSignature.parser_takes MethodSignature.standard,
    .of_takes ReferenceType.parser_takes ReferenceType.standard⟩

/-- Empty angle brackets are accepted, though no signature is written with them. -/
theorem empty_arguments_accepted :
    let c : ClassType ReferenceType := ⟨⟨"p/A", []⟩, []⟩
    (ReferenceType.parse "Lp/A<>;" = .ok (.ofClass c) ∧
      ReferenceType.parse "Lp/A;" = .ok (.ofClass c) ∧
      "Lp/A<>;".toList ≠ (ReferenceType.ofClass c).signature) ∧
    ClassSignature.parse "<>Lp/A;" = .ok ⟨[], c, []⟩ ∧
      ClassSignature.parse "Lp/A;" = .ok ⟨[], c, []⟩ := by
  refine ⟨⟨?_, ?_, ?_⟩, ?_, ?_⟩
  · cbv
  · cbv
  · decide
  · cbv
  · cbv

end Rebuild
