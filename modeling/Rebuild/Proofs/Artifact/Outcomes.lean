import Mathlib
import Rebuild.Proofs.Artifact.Reading

/-! What becomes of a byte string in a reader: the reader takes bytes from the front, or it asks for
more bytes than there are, or it fails whatever follows. Main statement: the bytes that a reader
takes cannot be cut, since with fewer of them the reader asks for more. -/
namespace Rebuild.Artifact.Reader

variable {α β : Type} {reader : Reader α} {next : α → Reader β}
  {bytes taken first left rest : List UInt8} {a : α} {count : Nat} {e : DecodeError}

/-! ## Three outcomes -/

/-- Behind some bytes a reader asks for `count` more. While there are fewer, it reports the place
behind those that it has taken. With all of them, a report of the same number is about something
else: it does not move when the reader starts elsewhere. -/
structure Asks (reader : Reader α) (taken : List UInt8) (count : Nat) : Prop where
  pos : 0 < count
  short : ∀ left, left.length < count → ∀ offset,
    reader ⟨taken ++ left, offset⟩ = .error (.unexpectedEnd (offset + taken.length))
  enough : ∀ left, count ≤ left.length → ∀ offset,
    reader ⟨taken ++ left, offset⟩ = .error (.unexpectedEnd (offset + taken.length)) →
      ∀ offset', reader ⟨taken ++ left, offset'⟩ = .error (.unexpectedEnd (offset + taken.length))

/-- Behind some bytes a reader fails in such a way, whatever follows. -/
def Fails (reader : Reader α) (taken : List UInt8) (wrong : DecodeError → Prop) : Prop :=
  ∃ e, wrong e ∧ ∀ rest offset, reader ⟨taken ++ rest, offset⟩ = .error e

/-- What becomes of a byte string, where `bad` tells the failures and how far the reader got. -/
inductive Outcome (reader : Reader α) (bad : List UInt8 → DecodeError → Prop)
    (bytes : List UInt8) : Prop
  | reads {taken rest : List UInt8} {a : α} (hbytes : bytes = taken ++ rest)
      (h : reader.Reads taken a) : Outcome reader bad bytes
  | asks {taken left : List UInt8} {count : Nat} (hbytes : bytes = taken ++ left)
      (hleft : left.length < count) (h : reader.Asks taken count) : Outcome reader bad bytes
  | fails {taken rest : List UInt8} (hbytes : bytes = taken ++ rest)
      (h : reader.Fails taken (bad taken)) : Outcome reader bad bytes

/-- Every byte string has one of the three outcomes. -/
def Settles (reader : Reader α) (bad : List UInt8 → DecodeError → Prop) : Prop :=
  ∀ bytes, reader.Outcome bad bytes

/-- A place before the one where it starts is nothing that a reader finds to be missing: such a
report does not move with the start. -/
def LooksAhead (reader : Reader α) : Prop := ∀ rest offset place,
  reader ⟨rest, offset⟩ = .error (.unexpectedEnd place) → place < offset →
    ∀ offset', reader ⟨rest, offset'⟩ = .error (.unexpectedEnd place)

/-! ## Readers one behind the other -/

theorem bind_error {cursor : Cursor} (h : reader cursor = .error e) :
    (reader >>= next) cursor = .error e := by
  rw [bind_apply, h]
  rfl

theorem Reads.bind_apply (h : reader.Reads first a) (next : α → Reader β) (rest : List UInt8)
    (offset : Nat) :
    (reader >>= next) ⟨first ++ rest, offset⟩ = next a ⟨rest, offset + first.length⟩ := by
  rw [Reader.bind_apply, h]
  rfl

theorem Reads.not_asks (h : reader.Reads first a) : ¬ reader.Asks (first ++ rest) count := by
  intro hasks
  have herror := hasks.short [] hasks.pos 0
  rw [List.append_nil, h] at herror
  cases herror

namespace Fails

variable {wrong wrong' : DecodeError → Prop}

theorem mono (h : reader.Fails taken wrong) (hle : ∀ e, wrong e → wrong' e) :
    reader.Fails taken wrong' := by
  obtain ⟨e, hwrong, herror⟩ := h
  exact ⟨e, hle e hwrong, herror⟩

theorem bind (h : reader.Fails taken wrong) : (reader >>= next).Fails taken wrong := by
  obtain ⟨e, hwrong, herror⟩ := h
  exact ⟨e, hwrong, fun rest offset => bind_error (herror rest offset)⟩

theorem behind (hnext : (next a).Fails taken wrong) (h : reader.Reads first a) :
    (reader >>= next).Fails (first ++ taken) wrong := by
  obtain ⟨e, hwrong, herror⟩ := hnext
  refine ⟨e, hwrong, fun rest offset => ?_⟩
  rw [List.append_assoc, h.bind_apply]
  exact herror rest _

theorem at_end (hnext : (next a).Fails [] wrong) (h : reader.Reads first a) :
    (reader >>= next).Fails first wrong := by
  rw [← List.append_nil first]
  exact hnext.behind h

end Fails

theorem Asks.behind (hnext : (next a).Asks taken count) (h : reader.Reads first a) :
    (reader >>= next).Asks (first ++ taken) count where
  pos := hnext.pos
  short left hleft offset := by
    rw [List.append_assoc, h.bind_apply, hnext.short left hleft, List.length_append, Nat.add_assoc]
  enough left hleft offset := by
    simp only [List.append_assoc, h.bind_apply, List.length_append, ← Nat.add_assoc]
    intro herror offset'
    exact hnext.enough left hleft _ herror _

namespace Settles

variable {bad bad' : List UInt8 → DecodeError → Prop}

theorem mono (h : reader.Settles bad) (hle : ∀ taken e, bad taken e → bad' taken e) :
    reader.Settles bad' := by
  intro bytes
  cases h bytes with
  | reads hbytes h => exact .reads hbytes h
  | asks hbytes hleft h => exact .asks hbytes hleft h
  | fails hbytes h => exact .fails hbytes (h.mono (hle _))

theorem pure (a : α) : Settles (pure a) bad :=
  fun bytes => .reads (List.nil_append bytes).symm (.pure a)

theorem looksAhead (h : reader.Settles bad) : reader.LooksAhead := by
  intro rest offset place herror hplace offset'
  cases h rest with
  | reads hbytes h =>
    rw [hbytes, h] at herror
    cases herror
  | asks hbytes hleft h =>
    rw [hbytes, h.short _ hleft] at herror
    cases herror
    omega
  | fails hbytes h =>
    obtain ⟨e, _, hfails⟩ := h
    rw [hbytes, hfails] at herror ⊢
    exact herror

/-- What a reader has read was settled by the bytes that it took. -/
theorem of_ok {offset : Nat} {cursor : Cursor} (h : reader.Settles bad)
    (hread : reader ⟨bytes, offset⟩ = .ok (a, cursor)) :
    ∃ taken, bytes = taken ++ cursor.rest ∧ reader.Reads taken a := by
  cases h bytes with
  | reads hbytes h =>
    rw [hbytes, h] at hread
    cases hread
    exact ⟨_, hbytes, h⟩
  | asks hbytes hleft h =>
    rw [hbytes, h.short _ hleft] at hread
    cases hread
  | fails hbytes h =>
    obtain ⟨e, _, hfails⟩ := h
    rw [hbytes, hfails] at hread
    cases hread

/-- With fewer bytes than it would take, a reader asks for more. -/
theorem exists_asks_of_cut (h : reader.Settles bad) (hreads : reader.Reads (bytes ++ rest) a)
    (hrest : rest ≠ []) : ∃ taken left count, bytes = taken ++ left ∧ left.length < count ∧
      reader.Asks taken count := by
  have hall := hreads [] 0
  rw [List.append_nil] at hall
  cases h bytes with
  | @reads _ left _ hbytes h =>
    rw [hbytes, List.append_assoc, h] at hall
    injection hall with hall
    have hnone : left ++ rest = [] := congrArg (fun r => r.2.rest) hall
    exact absurd (List.append_eq_nil_iff.1 hnone).2 hrest
  | asks hbytes hleft h => exact ⟨_, _, _, hbytes, hleft, h⟩
  | fails hbytes h =>
    obtain ⟨e, _, hfails⟩ := h
    rw [hbytes, List.append_assoc, hfails] at hall
    cases hall

end Settles

theorem Asks.bind {bad : List UInt8 → DecodeError → Prop} (h : reader.Asks taken count)
    (hsettles : reader.Settles bad)
    (hnext : ∀ first a, reader.Reads first a → (next a).LooksAhead) :
    (reader >>= next).Asks taken count where
  pos := h.pos
  short left hleft offset := bind_error (h.short left hleft offset)
  enough left hleft offset herror offset' := by
    cases hread : reader ⟨taken ++ left, offset⟩ with
    | error e =>
      rw [bind_error hread] at herror
      cases herror
      exact bind_error (h.enough left hleft offset hread offset')
    | ok r =>
      -- The next reader starts behind the place where bytes were missing.
      obtain ⟨first, hbytes, hreads⟩ := hsettles.of_ok hread
      have hbehind : taken.length < first.length := by
        by_contra hle
        obtain ⟨mid, rfl⟩ : first <+: taken :=
          List.prefix_of_prefix_length_le ⟨_, hbytes.symm⟩ ⟨_, rfl⟩ (by omega)
        exact hreads.not_asks h
      rw [hbytes, hreads.bind_apply] at herror ⊢
      exact hnext first r.1 hreads _ _ _ herror (by omega) _

theorem Settles.bind {bad bad' : List UInt8 → DecodeError → Prop} (h : reader.Settles bad)
    (hbad : ∀ taken e, bad taken e → bad' taken e)
    (hnext : ∀ first a, reader.Reads first a →
      (next a).Settles fun taken e => bad' (first ++ taken) e) :
    (reader >>= next).Settles bad' := by
  intro bytes
  cases h bytes with
  | @reads first rest a hbytes hreads =>
    subst hbytes
    cases hnext first a hreads rest with
    | reads hrest hreads' =>
      subst hrest
      exact .reads (List.append_assoc ..).symm (hreads.bind hreads')
    | asks hrest hleft hasks =>
      subst hrest
      exact .asks (List.append_assoc ..).symm hleft (hasks.behind hreads)
    | fails hrest hfails =>
      subst hrest
      exact .fails (List.append_assoc ..).symm (hfails.behind hreads)
  | asks hbytes hleft hasks =>
    exact .asks hbytes hleft (hasks.bind h fun first a hreads => (hnext first a hreads).looksAhead)
  | fails hbytes hfails => exact .fails hbytes (hfails.bind.mono (hbad _))

/-- The same behind a reader to which nothing worse can happen than the end of the bytes. -/
theorem Settles.andThen {bad : List UInt8 → DecodeError → Prop}
    (h : reader.Settles fun _ _ => False)
    (hnext : ∀ first a, reader.Reads first a →
      (next a).Settles fun taken e => bad (first ++ taken) e) : (reader >>= next).Settles bad :=
  h.bind (fun _ _ => False.elim) hnext

/-! ## Numbers and lists -/

variable {bad : List UInt8 → DecodeError → Prop}

theorem of_bytes_reads {content : List UInt8} (h : (Reader.bytes count).Reads taken content) :
    taken = content ∧ taken.length = count := by
  have hread := h [] 0
  rw [List.append_nil, Reader.bytes] at hread
  split at hread
  · rename_i hle
    injection hread with hread
    injection hread with hcontent hcursor
    injection hcursor with hrest hoffset
    have hall : taken.length ≤ count := List.drop_eq_nil_iff.1 hrest
    exact ⟨(List.take_of_length_le hall).symm.trans hcontent, Nat.le_antisymm hall hle⟩
  · cases hread

theorem bytes_settles (count : Nat) : (Reader.bytes count).Settles bad := by
  intro input
  by_cases hcount : count ≤ input.length
  · have hreads := bytes_reads (input.take count)
    rw [List.length_take_of_le hcount] at hreads
    exact .reads (List.take_append_drop count input).symm hreads
  · have hasks : (Reader.bytes count).Asks [] count := by
      refine ⟨by omega, fun left hleft offset => ?_, fun left hleft offset herror => ?_⟩
      · exact if_neg (Nat.not_le.2 hleft)
      · rw [Reader.bytes, List.nil_append, if_pos hleft] at herror
        cases herror
    exact .asks (List.nil_append input).symm (Nat.not_le.1 hcount) hasks

theorem Settles.map (f : α → β) (h : reader.Settles bad) : (f <$> reader).Settles bad := by
  rw [map_eq_pure_bind]
  exact h.bind (fun _ _ h => h) fun _ _ _ => .pure _

theorem u1_settles : u1.Settles bad := (bytes_settles 1).map number

theorem u2_settles : u2.Settles bad := (bytes_settles 2).map number

theorem u4_settles : u4.Settles bad := (bytes_settles 4).map number

theorem u8_settles : u8.Settles bad :=
  u4_settles.andThen fun _ _ _ => u4_settles.andThen fun _ _ _ => .pure _

theorem throw_settles (h : bad [] e) : (throw e : Reader α).Settles bad :=
  fun bytes => .fails (List.nil_append bytes).symm ⟨e, h, fun _ _ => rfl⟩

theorem lift_settles {result : Except DecodeError α} (h : ∀ e, result = .error e → bad [] e) :
    (lift result).Settles bad := by
  cases result with
  | ok a => exact .pure a
  | error e => exact throw_settles (h e rfl)

theorem lift_bind_settles {result : Except DecodeError α}
    (herror : ∀ e, result = .error e → bad [] e)
    (hok : ∀ a, result = .ok a → (next a).Settles bad) : (lift result >>= next).Settles bad := by
  cases result with
  | ok a => exact hok a rfl
  | error e => exact throw_settles (herror e rfl)

/-! ## Places within what is read -/

/-- A place behind what a first reader takes. -/
inductive Behind (reader : Reader α) (within : α → List UInt8 → Prop) : List UInt8 → Prop
  | intro {first rest : List UInt8} {a : α} (hfirst : reader.Reads first a) (h : within a rest) :
      Behind reader within (first ++ rest)

/-- A place within one of so many items, behind the items before it. -/
inductive InItems (reader : Reader α) (within : List UInt8 → Prop) : Nat → List UInt8 → Prop
  | here {count : Nat} {bytes : List UInt8} (h : within bytes) :
      InItems reader within (count + 1) bytes
  | later {count : Nat} {first rest : List UInt8} {a : α} (hfirst : reader.Reads first a)
      (h : InItems reader within count rest) : InItems reader within (count + 1) (first ++ rest)

/-- A place within one item of a list with its length in front. -/
def InList (reader : Reader α) (within : List UInt8 → Prop) : List UInt8 → Prop :=
  Behind u2 (InItems reader within)

variable {within : List UInt8 → Prop} {wrong : DecodeError → Prop}

theorem InItems.exists_within (h : InItems reader within count bytes) :
    ∃ taken, within taken := by
  induction h with
  | here h => exact ⟨_, h⟩
  | later _ _ ih => exact ih

theorem InList.exists_within (h : InList reader within bytes) : ∃ taken, within taken := by
  obtain ⟨_, hitems⟩ := h
  exact hitems.exists_within

theorem times_settles (h : reader.Settles bad) (count : Nat) :
    (times reader count).Settles fun bytes e => InItems reader (bad · e) count bytes := by
  induction count with
  | zero => exact .pure []
  | succ count ih =>
    refine h.bind (fun taken e hbad => .here hbad) fun first a hfirst => ?_
    exact ih.bind (fun taken e hbad => .later hfirst hbad) fun _ _ _ => .pure _

theorem counted_settles (h : reader.Settles bad) :
    (counted reader).Settles fun bytes e => InList reader (bad · e) bytes :=
  u2_settles.andThen fun _ count hlead => (times_settles h count).mono fun _ _ => .intro hlead

/-- What fails at a place behind a first reader. -/
theorem Behind.fails {within : α → List UInt8 → Prop} (h : Behind reader within bytes)
    (hfails : ∀ a taken, within a taken → (next a).Fails taken wrong) :
    (reader >>= next).Fails bytes wrong := by
  obtain ⟨hfirst, hwithin⟩ := h
  exact (hfails _ _ hwithin).behind hfirst

theorem InItems.times_fails (h : InItems reader within count bytes)
    (hfails : ∀ taken, within taken → reader.Fails taken wrong) :
    (times reader count).Fails bytes wrong := by
  induction h with
  | here h => exact (hfails _ h).bind
  | later hfirst _ ih => exact Fails.behind ih.bind hfirst

/-- A failure in one item is a failure of the list. -/
theorem InList.counted_fails (h : InList reader within bytes)
    (hfails : ∀ taken, within taken → reader.Fails taken wrong) :
    (counted reader).Fails bytes wrong :=
  h.fails fun _ _ hitems => hitems.times_fails hfails

end Rebuild.Artifact.Reader
