import Mathlib
import Rebuild.Declaration.Table
import Rebuild.Proofs.Declaration.Spelling

/-! What looking up does to a table. All it does is made of three steps: it binds a declaration to
an identifier that has none, it loads an artifact, or it lets a component remember its array. Main
statement: the table stays coherent, and answers are declarations of the table whose identifiers
are spelled as those of the kind that was asked for. -/
namespace Rebuild

open Artifact (ClassFile Member)

/-- The artifact of a type, where it is looked for. -/
def Finder.classFile? {φ : Type} (source : Finder φ) (binary : String) (s : φ) :
    Option ClassFile :=
  (source.find (Name.toInternal binary) s).1.bind fun bytes => (ClassFile.decode bytes).toOption

/-- The identifiers of the packages around and at a name, with the unnamed package. -/
def packagesAround (qualified : String) : List String :=
  "" :: (Table.packagePrefixes qualified 0 (Text.split '.' qualified)).map Prod.fst

/-- The types that can be found have names of the vocabulary, and so have the packages around
them. -/
structure Vocabulary.Covers {φ : Type} (V : Vocabulary) (source : Finder φ) (world : φ → Prop) :
    Prop where
  find_world : ∀ s internal, world s → world (source.find internal s).2
  type_found : ∀ s binary, world s → (source.classFile? binary s).isSome → V.type binary
  package_around : ∀ binary, V.type binary → ∀ q ∈ packagesAround (Name.packageOf binary),
    V.package q

/-- Where declarations are looked up. -/
structure Setting (φ : Type) where
  source : Finder φ
  /-- The states in which the finder may be. -/
  world : φ → Prop
  names : Vocabulary
  covers : names.Covers source world
  /-- Declarations that the table made once and that are still in use. -/
  held : Declaration → Prop

variable {φ α β : Type}

namespace Setting

/-- A declaration that the table has, or had once. -/
def Known (S : Setting φ) (t : Table φ) (d : Declaration) : Prop :=
  S.held d ∨ t.get? d.id = some d

/-- The tables that looking up comes to. -/
structure Coherent (S : Setting φ) (t : Table φ) : Prop where
  id_eq : ∀ {id d}, t.get? id = some d → d.id = id
  spelled : ∀ {d}, S.Known t d → Spelled S.names d
  serial_lt : ∀ {d}, S.Known t d → d.serial < t.nextSerial
  serial_injective : ∀ {d e}, S.Known t d → S.Known t e → d.serial = e.serial → d = e
  array : ∀ {serial a}, t.arrays.get? serial = some a →
    S.Known t a ∧ ∃ c, S.Known t c ∧ c.serial = serial ∧ a.id = c.id ++ "[]"
  loaded : ∀ {binary c}, t.classes.get? binary = some (some c) → S.names.type binary
  finder : S.world t.finder

/-! ## Steps -/

/-- What looking up does to a table at a time. -/
inductive Step (S : Setting φ) : Table φ → Table φ → Prop
  | bind {t : Table φ} {d : Declaration} (hfree : t.get? d.id = none)
      (hserial : d.serial = t.nextSerial) (hspelled : Spelled S.names d) :
      Step S t { t with bound := t.bound.put d.id d, nextSerial := t.nextSerial + 1 }
  | load {t : Table φ} (binary : String) :
      Step S t ((Table.classFile S.source binary).run t).2
  | attach {t : Table φ} {c a : Declaration} (hc : S.Known t c) (ha : S.Known t a)
      (hid : a.id = c.id ++ "[]") : Step S t { t with arrays := t.arrays.put c.serial a }

/-- Any number of steps. -/
abbrev Steps (S : Setting φ) : Table φ → Table φ → Prop := Relation.ReflTransGen S.Step

end Setting

open Setting

variable {S : Setting φ} {t t' : Table φ} {d : Declaration}

namespace Table

theorem run_bind (m : TableM φ α) (f : α → TableM φ β) (t : Table φ) :
    (m >>= f).run t = (f (m.run t).1).run (m.run t).2 := rfl

theorem run_intern (id : String) (make : Nat → Declaration) (t : Table φ) :
    (intern id make).run t = match t.get? id with
      | some d => (d, t)
      | none => (make t.nextSerial, { t with
          bound := t.bound.put id (make t.nextSerial), nextSerial := t.nextSerial + 1 }) := by
  change (match t.get? id with
    | some d => pure d
    | none => do
      set { t with bound := t.bound.put id (make t.nextSerial), nextSerial := t.nextSerial + 1 }
      return make t.nextSerial : TableM φ Declaration).run t = _
  cases t.get? id <;> rfl

theorem run_classFile (source : Finder φ) (binary : String) (t : Table φ) :
    (classFile source binary).run t = match t.classes.get? binary with
      | some known => (known, t)
      | none => (source.classFile? binary t.finder, { t with
          classes := t.classes.put binary (source.classFile? binary t.finder)
          finder := (source.find (Name.toInternal binary) t.finder).2 }) := by
  unfold classFile
  rw [run_bind]
  change StateT.run (match t.classes.get? binary with
    | some known => _
    | none => _) t = _
  cases t.classes.get? binary <;> rfl

end Table

theorem Setting.Step.get?_of_get? (h : S.Step t t') {id : String} (hd : t.get? id = some d) :
    t'.get? id = some d := by
  cases h with
  | @bind e hfree hserial hspelled =>
    have hne : e.id ≠ id := by
      rintro rfl
      simp [hfree] at hd
    simpa [Table.get?, hne] using hd
  | load binary =>
    rw [Table.run_classFile]
    split <;> exact hd
  | attach hc ha hid => exact hd

theorem Setting.Steps.get?_of_get? (h : S.Steps t t') {id : String} (hd : t.get? id = some d) :
    t'.get? id = some d := by
  induction h with
  | refl => exact hd
  | tail _ hstep ih => exact hstep.get?_of_get? ih

theorem Setting.Known.steps (hd : S.Known t d) (h : S.Steps t t') : S.Known t' d :=
  hd.imp_right h.get?_of_get?

theorem Setting.Coherent.step (ht : S.Coherent t) (h : S.Step t t') : S.Coherent t' := by
  cases h with
  | @bind d hfree hserial hspelled =>
    have hknown {e : Declaration} (he : S.Known { t with
        bound := t.bound.put d.id d, nextSerial := t.nextSerial + 1 } e) : S.Known t e ∨ e = d := by
      rcases he with he | he
      · exact .inl (.inl he)
      · by_cases hid : d.id = e.id
        · simp_all [Table.get?]
        · exact .inl (.inr (by simpa [Table.get?, hid] using he))
    have hstep : S.Steps t _ := .single (.bind hfree hserial hspelled)
    refine ⟨?_, ?_, ?_, ?_, ?_, ht.loaded, ht.finder⟩
    · intro id e he
      by_cases hid : d.id = id
      · simp_all [Table.get?]
      · exact ht.id_eq (by simpa [Table.get?, hid] using he)
    · intro e he
      rcases hknown he with he | rfl
      · exact ht.spelled he
      · exact hspelled
    · intro e he
      rcases hknown he with he | rfl
      · exact Nat.lt_succ_of_lt (ht.serial_lt he)
      · simp [hserial]
    · intro e f he hf heq
      rcases hknown he with hold | rfl <;> rcases hknown hf with hold' | rfl
      · exact ht.serial_injective hold hold' heq
      · exact absurd (ht.serial_lt hold) (by omega)
      · exact absurd (ht.serial_lt hold') (by omega)
      · rfl
    · intro serial a ha
      obtain ⟨haknown, c, hc, hcserial, hid⟩ := ht.array ha
      exact ⟨haknown.steps hstep, c, hc.steps hstep, hcserial, hid⟩
  | load binary =>
    rw [Table.run_classFile]
    split
    · exact ht
    next hnone =>
      refine ⟨ht.id_eq, ht.spelled, ht.serial_lt, ht.serial_injective, ht.array, ?_,
        S.covers.find_world _ _ ht.finder⟩
      intro b c hb
      by_cases heq : binary = b
      · subst heq
        have hfound : S.source.classFile? binary t.finder = some c := by simpa using hb
        exact S.covers.type_found _ _ ht.finder (by simp [hfound])
      · exact ht.loaded (by simpa [heq] using hb)
  | @attach c a hc ha hid =>
    refine ⟨ht.id_eq, ht.spelled, ht.serial_lt, ht.serial_injective, ?_, ht.loaded, ht.finder⟩
    intro serial b hb
    by_cases heq : c.serial = serial
    · obtain rfl : a = b := by simpa [heq] using hb
      exact ⟨ha, c, hc, heq, hid⟩
    · exact ht.array (by simpa [heq] using hb)

theorem Setting.Coherent.steps (ht : S.Coherent t) (h : S.Steps t t') : S.Coherent t' := by
  induction h with
  | refl => exact ht
  | tail _ hstep ih => exact ih.step hstep

/-- In a coherent table, the array that a component remembers has its identifier. -/
theorem Setting.Coherent.arrayOf?_id (ht : S.Coherent t) {c a : Declaration} (hc : S.Known t c)
    (ha : t.arrayOf? c = some a) : S.Known t a ∧ a.id = c.id ++ "[]" := by
  obtain ⟨haknown, c', hc', hserial, hid⟩ := ht.array ha
  obtain rfl := ht.serial_injective hc' hc hserial
  exact ⟨haknown, hid⟩

/-! ## Lookups -/

/-- Looking up takes steps and comes to an answer with some property. -/
def Setting.Yields (S : Setting φ) (t : Table φ) (m : TableM φ α) (Q : α → Table φ → Prop) :
    Prop :=
  S.Coherent t → S.Steps t (m.run t).2 ∧ Q (m.run t).1 (m.run t).2

/-- The answer is a declaration of the table, spelled as one of some kind. -/
structure Setting.Answers (S : Setting φ) (kind : DeclarationKind) (t : Table φ)
    (d : Declaration) : Prop where
  known : S.Known t d
  spelled : ∃ e, Spelled S.names e ∧ e.kind = kind ∧ e.id = d.id

theorem Setting.Answers.steps {kind : DeclarationKind} (h : S.Answers kind t d)
    (hsteps : S.Steps t t') : S.Answers kind t' d :=
  ⟨h.known.steps hsteps, h.spelled⟩

/-- Where names are clear, the kind of the answer is that one. -/
theorem Setting.Answers.kind_eq {kind : DeclarationKind} (h : S.Answers kind t d)
    (hclear : S.names.Clear) (ht : S.Coherent t) : d.kind = kind := by
  obtain ⟨e, he, rfl, hid⟩ := h.spelled
  exact (ht.spelled h.known).kind_eq hclear he hid.symm

namespace Setting.Yields

variable {m : TableM φ α} {f : α → TableM φ β} {Q R : α → Table φ → Prop}
  {P : β → Table φ → Prop} {a : α}

theorem pure (h : S.Coherent t → Q a t) : S.Yields t (pure a : TableM φ α) Q :=
  fun ht => ⟨.refl, h ht⟩

theorem of_coherent (h : S.Coherent t → S.Yields t m Q) : S.Yields t m Q := fun ht => h ht ht

theorem mono (hm : S.Yields t m Q)
    (h : ∀ a t', S.Coherent t' → S.Steps t t' → Q a t' → R a t') : S.Yields t m R := by
  intro ht
  obtain ⟨hsteps, hq⟩ := hm ht
  exact ⟨hsteps, h _ _ (ht.steps hsteps) hsteps hq⟩

theorem bind (hm : S.Yields t m Q)
    (hf : ∀ a t', S.Steps t t' → Q a t' → S.Yields t' (f a) P) : S.Yields t (m >>= f) P := by
  intro ht
  obtain ⟨hsteps, hq⟩ := hm ht
  obtain ⟨hsteps', hp⟩ := hf _ _ hsteps hq (ht.steps hsteps)
  rw [Table.run_bind]
  exact ⟨hsteps.trans hsteps', hp⟩

theorem map {g : α → β} (hm : S.Yields t m fun a t' => P (g a) t') : S.Yields t (g <$> m) P := hm

theorem get_bind {f : Table φ → TableM φ β} (h : S.Yields t (f t) P) :
    S.Yields t (get >>= f) P := h

end Setting.Yields

end Rebuild
