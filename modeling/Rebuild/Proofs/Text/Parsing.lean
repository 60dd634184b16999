import Mathlib
import Rebuild.Text.Parser

/-! What parsers take from the front of a text, in both directions: which texts they read back, and
which texts they accept. Main statements: the rules for items that stand behind each other. -/
namespace Rebuild.Text

/-- A word that ends in front of the marks: it is not empty, and none of them occurs in it. -/
def IsWord (marks : List Char) (word : List Char) : Prop := word ≠ [] ∧ ∀ c ∈ word, c ∉ marks

instance (marks word : List Char) : Decidable (IsWord marks word) :=
  haveI : Decidable (∀ c ∈ word, c ∉ marks) := List.decidableBAll _ _
  inferInstanceAs (Decidable (_ ∧ _))

namespace Parser

variable {α β : Type} {parser item : Parser α} {next : α → Parser β} {spellings : α → Language Char}
  {input text more rest : List Char} {a : α} {b : β} {items : List α}

/-- In front of `rest` the parser takes the text and yields the value. -/
def Reads (parser : Parser α) (text rest : List Char) (a : α) : Prop :=
  parser (text ++ rest) = .ok (a, rest)

/-- What the parser takes for a value is one of the value's spellings. -/
def Takes (parser : Parser α) (spellings : α → Language Char) : Prop :=
  ∀ ⦃input a rest⦄, parser input = .ok (a, rest) → ∃ text ∈ spellings a, input = text ++ rest

/-- Behind some text the parser fails, whatever follows. -/
def Refuses (parser : Parser α) (text : List Char) : Prop :=
  ∀ rest, (parser (text ++ rest)).isOk = false

/-! ## Single steps -/

namespace Reads

theorem pure (a : α) : Reads (pure a) [] rest a := rfl

theorem bind (h : parser.Reads text (more ++ rest) a) (hnext : (next a).Reads more rest b) :
    (parser >>= next).Reads (text ++ more) rest b := by
  show (parser (text ++ more ++ rest)).bind (fun r => next r.1 r.2) = _
  rw [List.append_assoc, h]
  exact hnext

/-- A step that only looks ahead. -/
theorem bind_look (h : parser.Reads [] (text ++ rest) a) (hnext : (next a).Reads text rest b) :
    (parser >>= next).Reads text rest b :=
  h.bind hnext

theorem bind_nil (h : parser.Reads text rest a) (hnext : (next a).Reads [] rest b) :
    (parser >>= next).Reads text rest b := by
  rw [← List.append_nil text]
  exact h.bind hnext

theorem bind_pure (f : α → β) (h : parser.Reads text rest a) :
    (parser >>= fun a => Pure.pure (f a)).Reads text rest (f a) :=
  h.bind_nil (Reads.pure (f a))

theorem map (f : α → β) (h : parser.Reads text rest a) : (f <$> parser).Reads text rest (f a) := by
  rw [map_eq_pure_bind]
  exact h.bind_pure f

end Reads

namespace Refuses

theorem bind (h : parser.Refuses text) : (parser >>= next).Refuses text := by
  intro rest
  show ((parser (text ++ rest)).bind fun r => next r.1 r.2).isOk = false
  cases hparser : parser (text ++ rest) with
  | error e => rfl
  | ok r => exact absurd (h rest) (by simp [hparser, Except.isOk, Except.toBool])

theorem map (f : α → β) (h : parser.Refuses text) : (f <$> parser).Refuses text := by
  rw [map_eq_pure_bind]
  exact h.bind

theorem append (h : parser.Refuses text) (more : List Char) : parser.Refuses (text ++ more) := by
  intro rest
  rw [List.append_assoc]
  exact h (more ++ rest)

end Refuses

theorem Reads.bind_refuses (h : ∀ rest, parser.Reads text (more ++ rest) a)
    (hnext : (next a).Refuses more) : (parser >>= next).Refuses (text ++ more) := by
  intro rest
  show ((parser (text ++ more ++ rest)).bind fun r => next r.1 r.2).isOk = false
  rw [List.append_assoc, h rest]
  exact hnext rest

theorem Reads.look_refuses (h : ∀ rest, parser.Reads [] (text ++ rest) a)
    (hnext : (next a).Refuses text) : (parser >>= next).Refuses text :=
  Reads.bind_refuses h hnext

theorem fail_refuses : (fail : Parser α).Refuses text := fun _ => rfl

theorem bind_eq_ok : (parser >>= next) input = .ok (b, rest) ↔
    ∃ a mid, parser input = .ok (a, mid) ∧ next a mid = .ok (b, rest) := by
  show (parser input).bind (fun r => next r.1 r.2) = _ ↔ _
  cases parser input with
  | error e => simp [Except.bind]
  | ok r => simp [Except.bind, Prod.ext_iff]

theorem map_eq_ok {f : α → β} : (f <$> parser) input = .ok (b, rest) ↔
    ∃ a, parser input = .ok (a, rest) ∧ f a = b := by
  rw [map_eq_pure_bind, bind_eq_ok]
  constructor
  · rintro ⟨a, mid, ha, hb⟩
    cases hb
    exact ⟨a, ha, rfl⟩
  · rintro ⟨a, ha, rfl⟩
    exact ⟨a, rest, ha, rfl⟩

theorem pure_eq_ok {a' : α} : (pure a : Parser α) input = .ok (a', rest) ↔ a = a' ∧ input = rest := by
  show Except.ok (a, input) = _ ↔ _
  simp

theorem fail_ne_ok : (fail : Parser α) input ≠ .ok (a, rest) := nofun

theorem peek?_reads (rest : List Char) : peek?.Reads [] rest rest.head? := rfl

theorem peek?_eq_ok {next? : Option Char} :
    peek? input = .ok (next?, rest) ↔ input.head? = next? ∧ input = rest := by
  simp [peek?]

theorem expect_reads (c : Char) (rest : List Char) : (expect c).Reads [c] rest () := by
  simp [Reads, expect]

theorem expect_eq_ok {c : Char} {u : Unit} : expect c input = .ok (u, rest) ↔ input = c :: rest := by
  cases input with
  | nil => simp [expect]
  | cons d tail =>
    by_cases hd : d = c <;> simp [expect, hd]

theorem eat_reads (c : Char) (rest : List Char) : (eat c).Reads [c] rest true := by
  simp [Reads, eat]

theorem eat_reads_other {c : Char} (h : rest.head? ≠ some c) : (eat c).Reads [] rest false := by
  cases rest with
  | nil => rfl
  | cons d tail =>
    have hd : d ≠ c := by simpa using h
    simp [Reads, eat, hd]

theorem eat_reads_in_front {c d : Char} (hd : d ∈ text.head?) (hne : d ≠ c) (rest : List Char) :
    (eat c).Reads [] (text ++ rest) false := by
  apply eat_reads_other
  rw [List.head?_append, hd]
  simpa using hne

theorem eat_eq_ok_true {c : Char} : eat c input = .ok (true, rest) ↔ input = c :: rest := by
  cases input with
  | nil => simp [eat]
  | cons d tail =>
    by_cases hd : d = c <;> simp [eat, hd]

theorem eat_eq_ok_false {c : Char} :
    eat c input = .ok (false, rest) ↔ input.head? ≠ some c ∧ input = rest := by
  cases input with
  | nil => simp [eat]
  | cons d tail =>
    by_cases hd : d = c <;> simp [eat, hd]

theorem finish_eq_ok {u : Unit} : finish input = .ok (u, rest) ↔ input = [] ∧ rest = [] := by
  unfold finish
  split <;> simp_all [eq_comm]

/-- A word is read up to a mark. -/
theorem word_reads {marks word : List Char} {stop : Char → Bool} (hstop : ∀ c, stop c ↔ c ∈ marks)
    (hword : IsWord marks word) (hrest : ∀ c ∈ rest.head?, c ∈ marks) :
    (Parser.word stop).Reads word rest word := by
  obtain ⟨hne, hplain⟩ := hword
  have hgo : ∀ c ∈ word, (!stop c) = true := fun c hc => by
    simpa [← hstop] using hplain c hc
  have hend : rest.takeWhile (fun c => !stop c) = [] ∧ rest.dropWhile (fun c => !stop c) = rest := by
    cases rest with
    | nil => simp
    | cons d tail =>
      have hd : stop d = true := (hstop d).mpr (hrest d rfl)
      simp [hd]
  unfold Reads Parser.word
  simp [List.takeWhile_append_of_pos hgo, List.dropWhile_append_of_pos hgo, hend, hne]

theorem of_word_eq_ok (marks : List Char) {word : List Char} {stop : Char → Bool}
    (hstop : ∀ c, stop c ↔ c ∈ marks) (h : Parser.word stop input = .ok (word, rest)) :
    IsWord marks word ∧ input = word ++ rest := by
  unfold Parser.word at h
  dsimp only at h
  split at h
  · cases h
  · next hne =>
    obtain ⟨rfl, rfl⟩ : input.takeWhile (fun c => !stop c) = word ∧
        input.dropWhile (fun c => !stop c) = rest := by simpa using h
    refine ⟨⟨hne, fun c hc => ?_⟩, List.takeWhile_append_dropWhile.symm⟩
    simpa [← hstop] using List.mem_takeWhile_imp hc

/-! ## Items behind each other -/

theorem mem_prod_cons {language : Language Char} {languages : List (Language Char)} :
    text ∈ (language :: languages).prod ↔
      ∃ first ∈ language, ∃ others ∈ languages.prod, first ++ others = text := by
  rw [List.prod_cons, Language.mem_mul]

/-- Values with some property that have one spelling each. -/
def written (p : α → Prop) (text : α → List Char) (a : α) : Language Char := {w | p a ∧ w = text a}

theorem mem_prod_written {p : α → Prop} {write : α → List Char} :
    text ∈ (items.map (written p write)).prod ↔
      (∀ a ∈ items, p a) ∧ text = items.flatMap write := by
  induction items generalizing text with
  | nil => simp
  | cons a items ih =>
    rw [List.map_cons, mem_prod_cons]
    constructor
    · rintro ⟨_, ⟨ha, rfl⟩, others, hothers, rfl⟩
      obtain ⟨hitems, rfl⟩ := ih.mp hothers
      exact ⟨by simpa using ⟨ha, hitems⟩, rfl⟩
    · rintro ⟨hall, rfl⟩
      obtain ⟨ha, hitems⟩ := List.forall_mem_cons.mp hall
      exact ⟨write a, ⟨ha, rfl⟩, items.flatMap write, ih.mpr ⟨hitems, rfl⟩, rfl⟩

theorem many_takes {opening : Char} (h : item.Takes spellings) :
    (many opening item).Takes fun items => (items.map fun a => {[opening]} * spellings a).prod := by
  suffices ∀ n, (manyUpTo opening item n).Takes fun items =>
      (items.map fun a => {[opening]} * spellings a).prod from
    fun input items rest hmany => this _ hmany
  intro n
  induction n with
  | zero => exact fun input items rest h => absurd h fail_ne_ok
  | succ n ih =>
    intro input items rest hmany
    obtain ⟨opened, mid, heat, hopened⟩ := bind_eq_ok.mp hmany
    cases opened with
    | false =>
      obtain ⟨rfl, rfl⟩ := pure_eq_ok.mp hopened
      obtain ⟨-, rfl⟩ := eat_eq_ok_false.mp heat
      exact ⟨[], rfl, rfl⟩
    | true =>
      obtain rfl := eat_eq_ok_true.mp heat
      obtain ⟨first, _, hfirst, htail⟩ := bind_eq_ok.mp hopened
      obtain ⟨others, _, hothers, hdone⟩ := bind_eq_ok.mp htail
      obtain ⟨rfl, rfl⟩ := pure_eq_ok.mp hdone
      obtain ⟨text, htext, rfl⟩ := h hfirst
      obtain ⟨more, hmore, rfl⟩ := ih hothers
      refine ⟨opening :: text ++ more, mem_prod_cons.mpr ⟨opening :: text, ?_, more, hmore, rfl⟩, ?_⟩
      · exact Language.mem_mul.mpr ⟨[opening], rfl, text, htext, rfl⟩
      · simp

theorem untilChar_takes {closing : Char} (h : item.Takes spellings) :
    (untilChar closing item).Takes fun items => (items.map spellings).prod * {[closing]} := by
  suffices ∀ n, (untilUpTo closing item n).Takes fun items =>
      (items.map spellings).prod * {[closing]} from
    fun input items rest huntil => this _ huntil
  intro n
  induction n with
  | zero => exact fun input items rest h => absurd h fail_ne_ok
  | succ n ih =>
    intro input items rest huntil
    obtain ⟨closed, mid, heat, hclosed⟩ := bind_eq_ok.mp huntil
    cases closed with
    | true =>
      obtain ⟨rfl, rfl⟩ := pure_eq_ok.mp hclosed
      obtain rfl := eat_eq_ok_true.mp heat
      exact ⟨[closing], Language.append_mem_mul (a := []) rfl rfl, rfl⟩
    | false =>
      obtain ⟨-, rfl⟩ := eat_eq_ok_false.mp heat
      obtain ⟨first, _, hfirst, htail⟩ := bind_eq_ok.mp hclosed
      obtain ⟨others, _, hothers, hdone⟩ := bind_eq_ok.mp htail
      obtain ⟨rfl, rfl⟩ := pure_eq_ok.mp hdone
      obtain ⟨text, htext, rfl⟩ := h hfirst
      obtain ⟨more, hmore, rfl⟩ := ih hothers
      refine ⟨text ++ more, ?_, (List.append_assoc ..).symm⟩
      show text ++ more ∈ ((first :: others).map spellings).prod * {[closing]}
      rw [List.map_cons, List.prod_cons, mul_assoc]
      exact Language.append_mem_mul htext hmore

theorem toEndUpTo_of_ne_nil {n : Nat} (h : input ≠ []) : toEndUpTo item (n + 1) input = (do
    let first ← item
    let others ← toEndUpTo item n
    return first :: others : Parser (List α)) input :=
  if_neg h

theorem toEnd_takes (h : item.Takes spellings) :
    (toEnd item).Takes fun items => (items.map spellings).prod := by
  suffices ∀ n, (toEndUpTo item n).Takes fun items => (items.map spellings).prod from
    fun input items rest htoEnd => this _ htoEnd
  intro n
  induction n with
  | zero => exact fun input items rest h => absurd h fail_ne_ok
  | succ n ih =>
    intro input items rest htoEnd
    by_cases hempty : input = []
    · obtain ⟨rfl, rfl⟩ : [] = items ∧ [] = rest := by simpa [toEndUpTo, hempty] using htoEnd
      exact ⟨[], rfl, hempty⟩
    · rw [toEndUpTo_of_ne_nil hempty] at htoEnd
      obtain ⟨first, _, hfirst, htail⟩ := bind_eq_ok.mp htoEnd
      obtain ⟨others, _, hothers, hdone⟩ := bind_eq_ok.mp htail
      obtain ⟨rfl, rfl⟩ := pure_eq_ok.mp hdone
      obtain ⟨text, htext, rfl⟩ := h hfirst
      obtain ⟨more, hmore, rfl⟩ := ih hothers
      exact ⟨text ++ more, mem_prod_cons.mpr ⟨text, htext, more, hmore, rfl⟩,
        (List.append_assoc ..).symm⟩

theorem head_announced {opening : Char}
    (h : text ∈ (items.map fun a => {[opening]} * spellings a).prod) :
    text.head? = some opening ∨ items = [] ∧ text = [] := by
  cases items with
  | nil => exact .inr ⟨rfl, h⟩
  | cons a items =>
    obtain ⟨_, ha, _, -, rfl⟩ := mem_prod_cons.mp h
    obtain ⟨_, rfl, _, -, rfl⟩ := Language.mem_mul.mp ha
    exact .inl rfl

/-- Items that are each announced by a character, in front of another one. An item may depend on
which of the two comes next. -/
theorem many_reads {opening : Char} (hrest : rest.head? ≠ some opening)
    (hitem : ∀ a ∈ items, ∀ text ∈ spellings a, ∀ later : List Char,
      later.head? = some opening ∨ later = rest → item.Reads text later a)
    (htext : text ∈ (items.map fun a => {[opening]} * spellings a).prod) :
    (many opening item).Reads text rest items := by
  -- Each item takes a character at least, so the length of the text bounds the rounds.
  suffices ∀ n, text.length < n → (manyUpTo opening item n).Reads text rest items from
    this _ (by simp)
  intro n hn
  induction items generalizing n text with
  | nil =>
    obtain rfl : text = [] := htext
    obtain ⟨n, rfl⟩ := Nat.exists_eq_add_of_lt hn
    apply (eat_reads_other hrest).bind_look
    rfl
  | cons a items ih =>
    obtain ⟨first, hfirst, others, hothers, rfl⟩ := mem_prod_cons.mp htext
    obtain ⟨_, rfl, written, hwritten, rfl⟩ := Language.mem_mul.mp hfirst
    obtain ⟨n, rfl⟩ : ∃ m, n = m + 1 := ⟨n - 1, by omega⟩
    have hlater : (others ++ rest).head? = some opening ∨ others ++ rest = rest := by
      rcases head_announced hothers with hhead | ⟨-, rfl⟩
      · exact .inl (by rw [List.head?_append, hhead]; rfl)
      · exact .inr rfl
    have htail := ih (fun b hb => hitem b (List.mem_cons_of_mem a hb)) hothers n
      (by simp at hn; omega)
    rw [List.append_assoc]
    apply (eat_reads opening _).bind
    apply (hitem a List.mem_cons_self written hwritten _ hlater).bind
    exact htail.bind_pure (a :: ·)

/-- Items up to a character. `follow` holds of the characters that may stand behind an item. -/
theorem untilChar_reads_followed {closing : Char} {follow : Char → Prop} (hclosing : follow closing)
    (hstart : ∀ a ∈ items, ∀ text ∈ spellings a, ∃ c ∈ text.head?, c ≠ closing ∧ follow c)
    (hitem : ∀ a ∈ items, ∀ text ∈ spellings a, ∀ later : List Char,
      (∀ c ∈ later.head?, follow c) → item.Reads text later a)
    (htext : text ∈ (items.map spellings).prod) :
    (untilChar closing item).Reads (text ++ [closing]) rest items := by
  suffices ∀ n, text.length < n →
      (untilUpTo closing item n).Reads (text ++ [closing]) rest items from
    this _ (by simp)
  intro n hn
  induction items generalizing n text with
  | nil =>
    obtain rfl : text = [] := htext
    obtain ⟨n, rfl⟩ := Nat.exists_eq_add_of_lt hn
    apply (eat_reads closing rest).bind_nil
    rfl
  | cons a items ih =>
    obtain ⟨first, hfirst, others, hothers, rfl⟩ := mem_prod_cons.mp htext
    obtain ⟨n, rfl⟩ : ∃ m, n = m + 1 := ⟨n - 1, by omega⟩
    obtain ⟨c, hc, hne, -⟩ := hstart a List.mem_cons_self first hfirst
    obtain ⟨tail, rfl⟩ := List.head?_eq_some_iff.mp hc
    have hlater : ∀ d ∈ (others ++ [closing] ++ rest).head?, follow d := by
      intro d hd
      cases items with
      | nil =>
        obtain rfl : others = [] := hothers
        obtain rfl : closing = d := by simpa using hd
        exact hclosing
      | cons b items =>
        obtain ⟨second, hsecond, others, -, rfl⟩ := mem_prod_cons.mp hothers
        obtain ⟨e, he, -, hfollow⟩ := hstart b (by simp) second hsecond
        obtain ⟨tail, rfl⟩ := List.head?_eq_some_iff.mp he
        obtain rfl : e = d := by simpa using hd
        exact hfollow
    have htail := ih (fun b hb => hstart b (List.mem_cons_of_mem a hb))
      (fun b hb => hitem b (List.mem_cons_of_mem a hb)) hothers n (by simp at hn; omega)
    apply (eat_reads_other (by simpa using hne)).bind_look
    rw [List.append_assoc]
    apply (hitem a List.mem_cons_self (c :: tail) hfirst _ hlater).bind
    exact htail.bind_pure (a :: ·)

/-- Items that are read whatever follows. -/
theorem untilChar_reads {closing : Char}
    (hstart : ∀ a ∈ items, ∀ text ∈ spellings a, ∃ c ∈ text.head?, c ≠ closing)
    (hitem : ∀ a ∈ items, ∀ text ∈ spellings a, ∀ later, item.Reads text later a)
    (htext : text ∈ (items.map spellings).prod) :
    (untilChar closing item).Reads (text ++ [closing]) rest items := by
  have hfollowed : ∀ a ∈ items, ∀ text ∈ spellings a, ∃ c ∈ text.head?, c ≠ closing ∧ True := by
    simpa using hstart
  exact untilChar_reads_followed trivial hfollowed
    (fun a ha text htext later _ => hitem a ha text htext later) htext

/-- One refused item is enough, if those in front of it are read. -/
theorem untilChar_refuses {γ : Type} {closing : Char} {items : List γ} {write : γ → List Char}
    (hstart : ∀ a ∈ items, ∃ c ∈ (write a).head?, c ≠ closing)
    (hitem : ∀ a ∈ items,
      item.Refuses (write a) ∨ ∃ value, ∀ later, item.Reads (write a) later value)
    (hrefused : ∃ a ∈ items, item.Refuses (write a)) :
    (untilChar closing item).Refuses (items.flatMap write) := by
  -- Running out of rounds is a failure as well, so their number does not matter here.
  suffices ∀ n, (untilUpTo closing item n).Refuses (items.flatMap write) from fun rest => this _ rest
  intro n
  induction items generalizing n with
  | nil => simp at hrefused
  | cons a items ih =>
    cases n with
    | zero => exact fail_refuses
    | succ n =>
      obtain ⟨c, hc, hne⟩ := hstart a List.mem_cons_self
      obtain ⟨tail, htail⟩ := List.head?_eq_some_iff.mp hc
      have heat (rest : List Char) :
          (eat closing).Reads [] (write a ++ items.flatMap write ++ rest) false :=
        eat_reads_other (by simpa [htail] using hne)
      rw [List.flatMap_cons]
      refine Reads.look_refuses heat ?_
      rcases hitem a List.mem_cons_self with hno | ⟨value, hread⟩
      · exact (hno.append _).bind
      · obtain ⟨b, hb, hno⟩ := hrefused
        rcases List.mem_cons.mp hb with rfl | hb
        · exact (hno.append _).bind
        · refine Reads.bind_refuses (fun rest => hread _) ?_
          exact (ih (fun b hb => hstart b (List.mem_cons_of_mem a hb))
            (fun b hb => hitem b (List.mem_cons_of_mem a hb)) ⟨b, hb, hno⟩ n).bind

theorem toEnd_reads (hne : ∀ a ∈ items, ∀ text ∈ spellings a, text ≠ [])
    (hitem : ∀ a ∈ items, ∀ text ∈ spellings a, ∀ rest, item.Reads text rest a)
    (htext : text ∈ (items.map spellings).prod) : (toEnd item).Reads text [] items := by
  suffices ∀ n, text.length < n → (toEndUpTo item n).Reads text [] items from
    this _ (by simp)
  intro n hn
  induction items generalizing n text with
  | nil =>
    obtain rfl : text = [] := htext
    obtain ⟨n, rfl⟩ := Nat.exists_eq_add_of_lt hn
    rfl
  | cons a items ih =>
    obtain ⟨first, hfirst, others, hothers, rfl⟩ := mem_prod_cons.mp htext
    obtain ⟨n, rfl⟩ : ∃ m, n = m + 1 := ⟨n - 1, by omega⟩
    have hfilled : first ++ others ++ [] ≠ [] := by
      simp [hne a List.mem_cons_self first hfirst]
    have hlength := List.length_pos_iff.mpr (hne a List.mem_cons_self first hfirst)
    have htail := ih (fun b hb => hne b (List.mem_cons_of_mem a hb))
      (fun b hb => hitem b (List.mem_cons_of_mem a hb)) hothers n (by simp at hn; omega)
    unfold Reads
    rw [toEndUpTo_of_ne_nil hfilled]
    apply (hitem a List.mem_cons_self first hfirst _).bind
    exact htail.bind_pure (a :: ·)

/-! ## Whole texts -/

theorem parseAll_eq_ok {text : String} :
    parseAll parser text = .ok a ↔ parser text.toList = .ok (a, []) := by
  constructor
  · intro h
    unfold parseAll at h
    split at h
    · next heq =>
      obtain ⟨_, _, hparser, hwhole⟩ := bind_eq_ok.mp heq
      obtain ⟨_, _, hfinish, hpure⟩ := bind_eq_ok.mp hwhole
      obtain ⟨rfl, rfl⟩ := finish_eq_ok.mp hfinish
      obtain ⟨rfl, -⟩ := pure_eq_ok.mp hpure
      cases h
      exact hparser
    · cases h
  · intro h
    have hwhole : (do let a ← parser; finish; return a : Parser α) text.toList = .ok (a, []) :=
      bind_eq_ok.mpr ⟨a, [], h, rfl⟩
    unfold parseAll
    rw [hwhole]

/-- A parser that reads back what it takes accepts exactly the spellings. -/
theorem parseAll_eq_ok_iff {text : String} (htakes : parser.Takes spellings)
    (hreads : ∀ a, ∀ text ∈ spellings a, parser.Reads text [] a) :
    parseAll parser text = .ok a ↔ text.toList ∈ spellings a := by
  rw [parseAll_eq_ok]
  constructor
  · intro h
    obtain ⟨written, hwritten, heq⟩ := htakes h
    rwa [heq, List.append_nil]
  · intro h
    have hread := hreads a _ h
    rwa [Reads, List.append_nil] at hread

theorem Reads.parseAll (h : parser.Reads text [] a) :
    Parser.parseAll parser (String.ofList text) = .ok a := by
  rw [parseAll_eq_ok, String.toList_ofList, ← List.append_nil text]
  exact h

theorem Refuses.parseAll {text : String} (h : parser.Refuses text.toList) :
    ∃ offset, Parser.parseAll parser text = .error offset := by
  cases hparse : Parser.parseAll parser text with
  | error offset => exact ⟨offset, rfl⟩
  | ok a =>
    have hrefused := h []
    rw [List.append_nil, parseAll_eq_ok.mp hparse] at hrefused
    cases hrefused

end Parser

end Rebuild.Text
