import Mathlib
import Rebuild.Proofs.Artifact.Outcomes

/-! The bodies of the attributes that are read. Each consists of numbers of two bytes, and how many
there have to be stands in the first of them. Main statement: what is made of a body whose length is
another one than its contents announce. -/
namespace Rebuild.Artifact

/-! ## Numbers of two bytes -/

namespace Reader

variable {α β : Type} {reader : Reader α} {next : α → Reader β} {size size' : Nat}
  {wrong : Nat → DecodeError → Prop} {body : List UInt8}

theorem u2_apply {offset : Nat} (h : 2 ≤ body.length) :
    u2 ⟨body, offset⟩ = .ok (number (body.take 2), ⟨body.drop 2, offset + 2⟩) := by
  show (Reader.bytes 2 ⟨body, offset⟩).bind _ = _
  rw [Reader.bytes, if_pos h]
  rfl

theorem u2_short {offset : Nat} (h : body.length < 2) :
    u2 ⟨body, offset⟩ = .error (.unexpectedEnd offset) := by
  show (Reader.bytes 2 ⟨body, offset⟩).bind _ = _
  rw [Reader.bytes, if_neg (Nat.not_le.2 h)]
  rfl

/-- The numbers of two bytes that a byte string consists of. -/
def words : List UInt8 → List Nat
  | a :: b :: rest => number [a, b] :: words rest
  | _ => []

theorem words_take_add (body : List UInt8) (m n : Nat) :
    words (body.take (2 * (m + n))) =
      words (body.take (2 * m)) ++ words ((body.drop (2 * m)).take (2 * n)) := by
  induction m generalizing body with
  | zero => simp [words]
  | succ m ih =>
    have hlength : 2 * (m + 1 + n) = 2 * (m + n) + 2 := by omega
    match body with
    | a :: b :: rest =>
      simp only [hlength, Nat.mul_succ, List.take_succ_cons, List.drop_succ_cons, words, ih,
        List.cons_append]
    | [_] | [] => simp [hlength, Nat.mul_succ, words]

theorem words_take_two (h : 2 ≤ body.length) : words (body.take 2) = [number (body.take 2)] := by
  match body with
  | a :: b :: rest => rfl
  | [_] | [] => simp at h

/-- A reader takes `size` numbers from a body. It stops behind the last whole number if the body is
too short for them; else all that can go wrong is something with one of these numbers. -/
def TakesWords (reader : Reader α) (size : Nat) (wrong : Nat → DecodeError → Prop)
    (body : List UInt8) : Prop :=
  ∀ offset,
    (∃ e, reader ⟨body, offset⟩ = .error e ∧
      ∃ word ∈ words (body.take (2 * size)), wrong word e) ∨
    (2 * size ≤ body.length ∧
      ∃ a, reader ⟨body, offset⟩ = .ok (a, ⟨body.drop (2 * size), offset + 2 * size⟩)) ∨
    (body.length < 2 * size ∧
      reader ⟨body, offset⟩ = .error (.unexpectedEnd (offset + body.length / 2 * 2)))

namespace TakesWords

theorem pure (a : α) : TakesWords (pure a) 0 wrong body :=
  fun _ => .inr (.inl ⟨Nat.zero_le _, a, rfl⟩)

theorem bind (h : reader.TakesWords size wrong body)
    (hnext : ∀ offset a cursor, reader ⟨body, offset⟩ = .ok (a, cursor) →
      (next a).TakesWords size' wrong (body.drop (2 * size))) :
    (reader >>= next).TakesWords (size + size') wrong body := by
  intro offset
  rw [words_take_add]
  rcases h offset with ⟨e, hread, word, hword, hwrong⟩ | ⟨hsize, a, hread⟩ | ⟨hsize, hread⟩
  · exact .inl ⟨e, bind_error hread, word, List.mem_append_left _ hword, hwrong⟩
  · have hthen : (reader >>= next) ⟨body, offset⟩ =
        next a ⟨body.drop (2 * size), offset + 2 * size⟩ := by
      rw [bind_apply, hread]
      rfl
    rw [hthen]
    have hlength : (body.drop (2 * size)).length = body.length - 2 * size := List.length_drop
    rcases hnext offset a _ hread (offset + 2 * size) with
      ⟨e, hread', word, hword, hwrong⟩ | ⟨hsize', b, hread'⟩ | ⟨hsize', hread'⟩
    · exact .inl ⟨e, hread', word, List.mem_append_right _ hword, hwrong⟩
    · refine .inr (.inl ⟨by omega, b, ?_⟩)
      rw [hread', List.drop_drop, Nat.mul_add, Nat.add_assoc]
    · refine .inr (.inr ⟨by omega, ?_⟩)
      rw [hread']
      congr 2
      omega
  · exact .inr (.inr ⟨by omega, bind_error hread⟩)

end TakesWords

theorem u2_takesWords (body : List UInt8) : u2.TakesWords 1 wrong body := by
  intro offset
  rcases Nat.lt_or_ge body.length 2 with h | h
  · refine .inr (.inr ⟨h, ?_⟩)
    rw [u2_short h, Nat.div_eq_of_lt h]
    rfl
  · exact .inr (.inl ⟨h, _, u2_apply h⟩)

/-- One number and what is looked up for it. -/
theorem lookup_takesWords {look : Nat → Except DecodeError α}
    (hlook : ∀ word e, look word = .error e → wrong word e) (body : List UInt8) :
    TakesWords (do lift (look (← u2))) 1 wrong body := by
  intro offset
  rcases Nat.lt_or_ge body.length 2 with h | h
  · refine .inr (.inr ⟨h, ?_⟩)
    rw [bind_error (u2_short h), Nat.div_eq_of_lt h]
    rfl
  · have hthen : (u2 >>= fun word => lift (look word)) ⟨body, offset⟩ =
        lift (look (number (body.take 2))) ⟨body.drop 2, offset + 2⟩ := by
      rw [bind_apply, u2_apply h]
      rfl
    rw [hthen]
    cases hresult : look (number (body.take 2)) with
    | error e =>
      refine .inl ⟨e, rfl, number (body.take 2), ?_, hlook _ _ hresult⟩
      rw [Nat.mul_one, words_take_two h]
      exact List.mem_singleton_self _
    | ok a => exact .inr (.inl ⟨h, a, rfl⟩)

theorem lookup_bind_takesWords {look : Nat → Except DecodeError α}
    (hlook : ∀ word e, look word = .error e → wrong word e)
    (hnext : ∀ a, (next a).TakesWords size wrong (body.drop 2)) :
    TakesWords (do let word ← u2; let a ← lift (look word); next a) (1 + size) wrong body := by
  rw [← bind_assoc]
  exact (lookup_takesWords hlook body).bind fun _ a _ _ => hnext a

theorem times_takesWords (h : ∀ body, reader.TakesWords size wrong body) (count : Nat)
    (body : List UInt8) : (times reader count).TakesWords (count * size) wrong body := by
  induction count generalizing body with
  | zero =>
    rw [Nat.zero_mul]
    exact .pure []
  | succ count ih =>
    have hsize : (count + 1) * size = size + (count * size + 0) := by ring
    rw [hsize]
    exact (h body).bind fun _ _ _ _ => (ih _).bind fun _ _ _ _ => .pure _

/-- How many items a list has stands in front of it. -/
theorem counted_takesWords (h : ∀ body, reader.TakesWords size wrong body) (body : List UInt8) :
    (counted reader).TakesWords (1 + number (body.take 2) * size) wrong body := by
  refine (u2_takesWords body).bind fun offset count cursor hread => ?_
  have htwo : 2 ≤ body.length := by
    by_contra hshort
    rw [u2_short (Nat.not_le.1 hshort)] at hread
    cases hread
  rw [u2_apply htwo] at hread
  cases hread
  exact times_takesWords h _ _

end Reader

/-! ## What is looked up -/

/-- A number stands in a body for a text or a class, and the pool has no such entry there. -/
def ConstantPool.Misses (pool : ConstantPool) (word : Nat) (e : DecodeError) : Prop :=
  pool.text word = .error e ∨ pool.className word = .error e

namespace ConstantPool

variable {pool : ConstantPool} {word : Nat} {e : DecodeError}

theorem misses_of_text? (h : pool.text? word = .error e) : pool.Misses word e := by
  unfold text? at h
  split at h
  · cases h
  · cases htext : pool.text word with
    | error e' =>
      rw [htext] at h
      cases h
      exact .inl htext
    | ok text =>
      rw [htext] at h
      cases h

theorem misses_of_className? (h : pool.className? word = .error e) : pool.Misses word e := by
  unfold className? at h
  split at h
  · cases h
  · cases hname : pool.className word with
    | error e' =>
      rw [hname] at h
      cases h
      exact .inr hname
    | ok name =>
      rw [hname] at h
      cases h

end ConstantPool

namespace Attributes

open Reader

variable {holder : Holder} {pool : ConstantPool} {name : String}

theorem readClassName_takesWords (pool : ConstantPool) (body : List UInt8) :
    (readClassName pool).TakesWords 1 pool.Misses body :=
  lookup_takesWords (fun _ _ => .inr) body

theorem readInnerClass_takesWords (pool : ConstantPool) (body : List UInt8) :
    (readInnerClass pool).TakesWords 4 pool.Misses body := by
  show TakesWords _ (1 + (1 + (1 + (1 + 0)))) _ _
  refine (readClassName_takesWords pool body).bind fun _ inner _ _ => ?_
  refine lookup_bind_takesWords (fun _ _ => ConstantPool.misses_of_className?) fun outer => ?_
  refine lookup_bind_takesWords (fun _ _ => ConstantPool.misses_of_text?) fun name => ?_
  exact (u2_takesWords _).bind fun _ _ _ _ => .pure _

/-! ## Whole bodies -/

/-- The kinds of attributes that are read. -/
inductive Kind where
  | signature
  | thrown
  | innerClasses
  deriving DecidableEq

/-- The kind of an attribute by its name, if it is at home in the holder. -/
def Kind.of? (holder : Holder) (name : String) : Option Kind :=
  if name = "Signature" then some .signature
  else if name = "Exceptions" ∧ holder = .member then some .thrown
  else if name = "InnerClasses" ∧ holder = .type then some .innerClasses
  else none

/-- The length that the contents of a body announce. -/
def Kind.announced (body : List UInt8) : Kind → Nat
  | signature => 2
  | thrown => 2 + 2 * number (body.take 2)
  | innerClasses => 2 + 8 * number (body.take 2)

/-- What is reported of a body with another length. In a list that is too short, the place within
the body behind its last whole number is reported as the end of the input. -/
def Kind.fault (name : String) (body : List UInt8) (kind : Kind) : DecodeError :=
  if kind ≠ .signature ∧ body.length < kind.announced body then
    .unexpectedEnd (body.length / 2 * 2)
  else .malformedAttribute name

/-- What can become of a body: one of the numbers that it announces stands for nothing, or it is
added, or its length is not the announced one. -/
inductive Kind.Verdict {α : Type} (kind : Kind) (pool : ConstantPool) (name : String)
    (body : List UInt8) : Except DecodeError α → Prop
  | missed {word : Nat} {e : DecodeError} (hword : word ∈ words (body.take (kind.announced body)))
      (h : pool.Misses word e) : Verdict kind pool name body (.error e)
  | added (h : body.length = kind.announced body) (a : α) : Verdict kind pool name body (.ok a)
  | faulty (h : body.length ≠ kind.announced body) :
      Verdict kind pool name body (.error (kind.fault name body))

variable {α β : Type} {kind : Kind} {body : List UInt8}

theorem Kind.Verdict.map {result : Except DecodeError α} (h : kind.Verdict pool name body result)
    (f : α → β) : kind.Verdict pool name body (do return f (← result)) := by
  cases h with
  | missed hword h => exact .missed hword h
  | added h a => exact .added h (f a)
  | faulty h => exact .faulty h

/-- A body that is read by the numbers it announces. -/
theorem readBody_verdict {reader : Reader α} {size : Nat}
    (hkind : kind.announced body = 2 * size) (h : reader.TakesWords size pool.Misses body)
    (hshort : body.length < 2 * size → kind ≠ .signature) :
    kind.Verdict pool name body (readBody name reader body) := by
  rcases h 0 with ⟨e, hread, word, hword, hmisses⟩ | ⟨hsize, a, hread⟩ | ⟨hsize, hread⟩
  · have hresult : readBody name reader body = .error e := by
      rw [readBody, hread]
      rfl
    rw [hresult]
    rw [← hkind] at hword
    exact .missed hword hmisses
  · have hresult : readBody name reader body =
        if body.drop (2 * size) = [] then .ok a else .error (.malformedAttribute name) := by
      rw [readBody, hread]
      rfl
    rw [hresult]
    split_ifs with hrest
    all_goals rw [List.drop_eq_nil_iff] at hrest
    · exact .added (by omega) a
    · have hfault : kind.fault name body = .malformedAttribute name :=
        if_neg fun h => absurd h.2 (by omega)
      rw [← hfault]
      exact .faulty (by omega)
  · have hresult : readBody name reader body = .error (kind.fault name body) := by
      rw [Kind.fault, if_pos ⟨hshort hsize, hkind ▸ hsize⟩, readBody, hread, Nat.zero_add]
      rfl
    rw [hresult]
    exact .faulty (by omega)

theorem signatureBody_verdict (pool : ConstantPool) (body : List UInt8) :
    Kind.signature.Verdict pool "Signature" body
      (readBody "Signature" (signatureBody pool) body) := by
  rcases Nat.lt_or_ge body.length 2 with hshort | hle
  · have hresult : readBody "Signature" (signatureBody pool) body =
        .error (Kind.signature.fault "Signature" body) := by
      rw [readBody, signatureBody, u2_short hshort]
      rfl
    rw [hresult]
    exact .faulty hshort.ne
  · -- The index is whole, so it is looked up like any other one.
    have hbody : signatureBody pool ⟨body, 0⟩ = (do lift (pool.text (← u2))) ⟨body, 0⟩ := by
      rw [signatureBody, bind_apply, u2_apply hle]
      rfl
    have hresult : readBody "Signature" (signatureBody pool) body =
        readBody "Signature" (do lift (pool.text (← u2))) body := by
      rw [readBody, hbody]
      rfl
    rw [hresult]
    refine readBody_verdict rfl (lookup_takesWords (fun _ _ => .inl) body) fun hlt => ?_
    omega

/-- What becomes of an attribute of a kind that is read. -/
theorem add_verdict (pool : ConstantPool) (hkind : Kind.of? holder name = some kind)
    (kept : Attributes) (body : List UInt8) :
    kind.Verdict pool name body (kept.add holder pool name body) := by
  unfold Kind.of? at hkind
  unfold add
  split_ifs at hkind ⊢ with hsignature hthrown hinner
  · cases hkind
    subst hsignature
    exact (signatureBody_verdict pool body).map fun text => { kept with signature := some text }
  · cases hkind
    refine (readBody_verdict ?_ (counted_takesWords (readClassName_takesWords pool) body) ?_).map _
    · simp only [Kind.announced]
      ring
    · rintro - ⟨⟩
  · cases hkind
    refine (readBody_verdict ?_ (counted_takesWords (readInnerClass_takesWords pool) body) ?_).map _
    · simp only [Kind.announced]
      ring
    · rintro - ⟨⟩

/-- Attributes of other names are passed over. -/
theorem add_of_none (h : Kind.of? holder name = none) (kept : Attributes) (body : List UInt8) :
    kept.add holder pool name body = .ok kept := by
  unfold Kind.of? at h
  unfold add
  split_ifs at h ⊢
  rfl

end Attributes

end Rebuild.Artifact
