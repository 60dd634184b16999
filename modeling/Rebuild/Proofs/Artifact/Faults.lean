import Mathlib
import Rebuild.Proofs.Artifact.Bodies

/-! What is reported of bytes that are no artifact. Main statements: what lies behind an artifact is
counted, and an artifact that is cut anywhere ends too early; the bodies of attributes are told
apart by their lengths, where a list that is too short is taken for the end of the input. -/
namespace Rebuild

/-- An error about what the bytes say and not about how many there are. -/
def DecodeError.OfContents : DecodeError → Prop
  | unexpectedEnd _ | malformedAttribute _ | trailingBytes _ => False
  | _ => True

namespace Artifact

open Reader

/-! ## The pool -/

namespace ConstantPool

variable {pool : ConstantPool} {index : Nat} {e : DecodeError}

theorem get_error (h : pool.get index = .error e) : e.OfContents := by
  unfold get at h
  split at h <;> cases h
  all_goals trivial

theorem text_error (h : pool.text index = .error e) : e.OfContents := by
  unfold text at h
  cases hget : pool.get index with
  | error e' =>
    rw [hget] at h
    cases h
    exact get_error hget
  | ok entry =>
    rw [hget] at h
    cases entry <;> cases h
    all_goals trivial

theorem className_error (h : pool.className index = .error e) : e.OfContents := by
  unfold className at h
  cases hget : pool.get index with
  | error e' =>
    rw [hget] at h
    cases h
    exact get_error hget
  | ok entry =>
    rw [hget] at h
    cases entry with
    | classRef name => exact text_error h
    | _ =>
      cases h
      trivial

theorem Misses.ofContents (h : pool.Misses index e) : e.OfContents :=
  h.elim text_error className_error

end ConstantPool

theorem Constant.read_settles (index : Nat) :
    (Constant.read index).Settles fun _ e => e.OfContents := by
  refine u1_settles.andThen fun _ tag _ => ?_
  split
  · refine u2_settles.andThen fun _ length _ => (bytes_settles length).andThen fun _ bytes _ => ?_
    split
    · exact .pure _
    · exact throw_settles trivial
  -- All other entries are one or two numbers.
  all_goals first
    | exact throw_settles trivial
    | exact u4_settles.andThen fun _ _ _ => .pure _
    | exact u8_settles.andThen fun _ _ _ => .pure _
    | exact u2_settles.andThen fun _ _ _ => .pure _
    | exact u2_settles.andThen fun _ _ _ => u2_settles.andThen fun _ _ _ => .pure _
    | exact u1_settles.andThen fun _ _ _ => u2_settles.andThen fun _ _ _ => .pure _

theorem ConstantPool.readPlaces_settles (count left : Nat) (afterWide : Bool) :
    (readPlaces count left afterWide).Settles fun _ e => e.OfContents := by
  induction left generalizing afterWide with
  | zero => cases afterWide <;> exact .pure _
  | succ left ih =>
    cases afterWide with
    | true => exact (ih false).bind (fun _ _ h => h) fun _ _ _ => .pure _
    | false =>
      exact (Constant.read_settles _).bind (fun _ _ h => h) fun _ entry _ =>
        (ih entry.isWide).bind (fun _ _ h => h) fun _ _ _ => .pure _

theorem ConstantPool.read_settles : ConstantPool.read.Settles fun _ e => e.OfContents :=
  u2_settles.andThen fun _ count _ =>
    (readPlaces_settles count _ _).bind (fun _ _ h => h) fun _ _ _ => .pure _

theorem Attributes.readClassName_settles (pool : ConstantPool) :
    (readClassName pool).Settles fun _ e => e.OfContents :=
  u2_settles.andThen fun _ _ _ => lift_settles fun _ => ConstantPool.className_error

/-! ## Attributes -/

namespace Attributes

variable {α β : Type} {holder : Holder} {pool : ConstantPool} {name : String} {kind : Kind}
  {body bytes taken : List UInt8} {e : DecodeError}

/-- What is reported where some attributes are met: an error about what was read, or the fault of a
body with another length than its contents announce. -/
def Reported (holder : Holder) (meets : String → List UInt8 → Prop) (e : DecodeError) : Prop :=
  e.OfContents ∨ ∃ name kind body, meets name body ∧ Kind.of? holder name = some kind ∧
    body.length ≠ kind.announced body ∧ e = kind.fault name body

theorem Reported.mono {meets meets' : String → List UInt8 → Prop} (h : Reported holder meets e)
    (hle : ∀ name body, meets name body → meets' name body) : Reported holder meets' e := by
  obtain h | ⟨name, kind, body, hmeets, hrest⟩ := h
  · exact .inl h
  · exact .inr ⟨name, kind, body, hle _ _ hmeets, hrest⟩

/-- What is reported of one item is reported of the list. -/
theorem Reported.of_inList {reader : Reader α} {meets : String → List UInt8 → List UInt8 → Prop}
    (h : InList reader (fun taken => Reported holder (meets · · taken) e) bytes) :
    Reported holder (fun name body => InList reader (meets name body) bytes) e := by
  obtain ⟨hlead, hitems⟩ := h
  refine mono ?_ fun _ _ h => Behind.intro hlead h
  clear hlead
  induction hitems with
  | here h => exact h.mono fun _ _ => .here
  | later hfirst _ ih => exact ih.mono fun _ _ => .later hfirst

theorem add_error {kept : Attributes} (h : kept.add holder pool name body = .error e) :
    e.OfContents ∨ ∃ kind, Kind.of? holder name = some kind ∧
      body.length ≠ kind.announced body ∧ e = kind.fault name body := by
  cases hkind : Kind.of? holder name with
  | none =>
    rw [add_of_none hkind] at h
    cases h
  | some kind =>
    have hverdict := add_verdict pool hkind kept body
    rw [h] at hverdict
    cases hverdict with
    | missed _ hmisses => exact .inl hmisses.ofContents
    | faulty hlength => exact .inr ⟨kind, rfl, hlength, rfl⟩

/-- Among so many attributes, the bytes up to the end of the body of one with this name. -/
inductive MeetsAmong (holder : Holder) (pool : ConstantPool) (name : String) (body : List UInt8) :
    Nat → Attributes → List UInt8 → Prop
  | here {count nameIndex : Nat} {kept : Attributes} {index length : List UInt8}
      (hindex : u2.Reads index nameIndex) (hlength : u4.Reads length body.length)
      (hname : pool.text nameIndex = .ok name) :
      MeetsAmong holder pool name body (count + 1) kept (index ++ (length ++ body))
  | later {count : Nat} {kept kept' : Attributes} {first rest : List UInt8}
      (hfirst : (readMore holder pool 1 kept).Reads first kept')
      (h : MeetsAmong holder pool name body count kept' rest) :
      MeetsAmong holder pool name body (count + 1) kept (first ++ rest)

/-- The same for all attributes of a holder. -/
def Meets (holder : Holder) (pool : ConstantPool) (name : String) (body : List UInt8) :
    List UInt8 → Prop :=
  Behind u2 fun count => MeetsAmong holder pool name body count {}

theorem readMore_succ (holder : Holder) (pool : ConstantPool) (count : Nat) (kept : Attributes) :
    readMore holder pool (count + 1) kept = (do
      let kept ← readMore holder pool 1 kept
      readMore holder pool count kept) := by
  simp only [readMore, bind_assoc, pure_bind]

theorem readMore_settles (holder : Holder) (pool : ConstantPool) (count : Nat)
    (kept : Attributes) :
    (readMore holder pool count kept).Settles fun taken e => Reported holder
      (fun name body => MeetsAmong holder pool name body count kept taken) e := by
  induction count generalizing kept with
  | zero => exact .pure kept
  | succ count ih =>
    refine u2_settles.andThen fun index nameIndex hindex => ?_
    refine u4_settles.andThen fun length size hlength => ?_
    refine (bytes_settles size).andThen fun taken body hbody => ?_
    obtain ⟨rfl, rfl⟩ := of_bytes_reads hbody
    refine lift_bind_settles (fun e herror => .inl (ConstantPool.text_error herror)) ?_
    intro name hname
    refine lift_bind_settles (fun e herror => ?_) fun kept' hadd => ?_
    · obtain h | ⟨kind, hkind, hrest⟩ := add_error herror
      · exact .inl h
      · refine .inr ⟨name, kind, taken, ?_, hkind, hrest⟩
        rw [List.append_nil]
        exact .here hindex hlength hname
    · refine (ih kept').mono fun rest e h => h.mono fun _ _ hmeets => ?_
      have hfirst : (readMore holder pool 1 kept).Reads (index ++ (length ++ taken)) kept' := by
        refine hindex.bind (hlength.bind ((bytes_reads taken).bind_nil (.lift_bind hname ?_)))
        exact .lift_bind hadd (.pure kept')
      simp only [← List.append_assoc] at hfirst ⊢
      exact .later hfirst hmeets

theorem read_settles (holder : Holder) (pool : ConstantPool) :
    (read holder pool).Settles fun taken e =>
      Reported holder (fun name body => Meets holder pool name body taken) e :=
  u2_settles.andThen fun _ count hlead => (readMore_settles holder pool count {}).mono
    fun _ _ h => h.mono fun _ _ hamong => Behind.intro hlead hamong

/-- What is reported of a body with another length: its fault, or what is missing in the pool of the
entries that its contents need. -/
def Kind.Blamed (kind : Kind) (pool : ConstantPool) (name : String) (body : List UInt8)
    (e : DecodeError) : Prop :=
  e = kind.fault name body ∨ ∃ word ∈ words (body.take (kind.announced body)), pool.Misses word e

theorem add_blamed (pool : ConstantPool) (hkind : Kind.of? holder name = some kind)
    (hlength : body.length ≠ kind.announced body) (kept : Attributes) :
    ∃ e, kept.add holder pool name body = .error e ∧ kind.Blamed pool name body e := by
  have hverdict := add_verdict pool hkind kept body
  cases hadd : kept.add holder pool name body with
  | error e =>
    rw [hadd] at hverdict
    cases hverdict with
    | missed hword hmisses => exact ⟨_, rfl, .inr ⟨_, hword, hmisses⟩⟩
    | faulty _ => exact ⟨_, rfl, .inl rfl⟩
  | ok kept' =>
    rw [hadd] at hverdict
    cases hverdict with
    | added h _ => exact absurd h hlength

theorem readMore_fails (hkind : Kind.of? holder name = some kind)
    (hlength : body.length ≠ kind.announced body) {count : Nat} {kept : Attributes}
    (h : MeetsAmong holder pool name body count kept bytes) :
    (readMore holder pool count kept).Fails bytes (kind.Blamed pool name body) := by
  induction h with
  | @here count _ kept _ _ hindex hsize hname =>
    obtain ⟨e, hadd, hblamed⟩ := add_blamed pool hkind hlength kept
    refine .behind (.behind (.at_end ⟨e, hblamed, fun rest offset => ?_⟩ (bytes_reads body))
      hsize) hindex
    rw [hname]
    show (lift (kept.add holder pool name body) >>= readMore holder pool count) _ = _
    rw [hadd]
    rfl
  | later hfirst _ ih =>
    rw [readMore_succ]
    exact ih.behind hfirst

theorem read_fails (hkind : Kind.of? holder name = some kind)
    (hlength : body.length ≠ kind.announced body) (h : Meets holder pool name body bytes) :
    (read holder pool).Fails bytes (kind.Blamed pool name body) :=
  h.fails fun _ _ hamong => readMore_fails hkind hlength hamong

end Attributes

/-! ## Fields and methods -/

namespace Member

open Attributes

/-- What is read of a member before its attributes. -/
def readHead (pool : ConstantPool) : Reader Member := do
  let access ← u2
  let nameIndex ← u2
  let name ← lift (pool.text nameIndex)
  let descriptorIndex ← u2
  let descriptor ← lift (pool.text descriptorIndex)
  return { access := UInt16.ofNat access, name, descriptor, signature := none, thrown := [] }

/-- An attribute of a member that is met. -/
def Meets (pool : ConstantPool) (name : String) (body : List UInt8) : List UInt8 → Prop :=
  Behind (readHead pool) fun _ => Attributes.Meets .member pool name body

theorem read_eq (pool : ConstantPool) : Member.read pool = (do
    let head ← readHead pool
    let attributes ← Attributes.read .member pool
    return { head with signature := attributes.signature, thrown := attributes.thrown }) := by
  simp only [Member.read, readHead, bind_assoc, pure_bind]

theorem readHead_settles (pool : ConstantPool) :
    (readHead pool).Settles fun _ e => e.OfContents :=
  u2_settles.andThen fun _ _ _ => u2_settles.andThen fun _ _ _ =>
    lift_bind_settles (fun _ => ConstantPool.text_error) fun _ _ => u2_settles.andThen fun _ _ _ =>
      lift_bind_settles (fun _ => ConstantPool.text_error) fun _ _ => .pure _

theorem read_settles (pool : ConstantPool) : (Member.read pool).Settles fun taken e =>
    Reported .member (fun name body => Meets pool name body taken) e := by
  rw [read_eq]
  refine (readHead_settles pool).bind (fun _ _ => .inl) fun first head hfirst => ?_
  refine (Attributes.read_settles .member pool).bind (fun rest e h => ?_) fun _ _ _ => .pure _
  exact h.mono fun _ _ hmeets => Behind.intro hfirst hmeets

theorem read_fails {pool : ConstantPool} {name : String} {body bytes : List UInt8} {kind : Kind}
    (hkind : Kind.of? .member name = some kind) (hlength : body.length ≠ kind.announced body)
    (h : Meets pool name body bytes) :
    (Member.read pool).Fails bytes (kind.Blamed pool name body) := by
  rw [read_eq]
  exact h.fails fun _ _ hmeets => (Attributes.read_fails hkind hlength hmeets).bind

end Member

/-! ## Artifacts -/

namespace ClassFile

open Attributes

variable {bytes taken : List UInt8} {c : ClassFile} {pool : ConstantPool} {holder : Holder}
  {name : String} {body : List UInt8} {kind : Kind} {e : DecodeError}

/-- What is read of an artifact before its fields. -/
def readHead : Reader ClassFile := do
  readMagic
  let minorVersion ← u2
  let majorVersion ← u2
  let pool ← ConstantPool.read
  let access ← u2
  let thisClass ← readClassName pool
  let superIndex ← u2
  let superClass ← lift (pool.className? superIndex)
  let interfaces ← counted (readClassName pool)
  return {
    minorVersion, majorVersion, access := UInt16.ofNat access, thisClass, superClass, interfaces
    fields := [], methods := [], signature := none, innerClasses := [], pool }

/-- What is read behind that. -/
def readTables (head : ClassFile) : Reader ClassFile := do
  let fields ← counted (Member.read head.pool)
  let methods ← counted (Member.read head.pool)
  let attributes ← Attributes.read .type head.pool
  return {
    head with
    fields, methods, signature := attributes.signature, innerClasses := attributes.innerClasses }

def readContents : Reader ClassFile := readHead >>= readTables

theorem read_eq : read = (do
    let c ← readContents
    finish
    return c) := by
  simp only [read, readContents, readHead, readTables, bind_assoc, pure_bind]

theorem decode_of_error (h : readContents ⟨bytes, 0⟩ = .error e) : decode bytes = .error e := by
  rw [decode, run, read_eq, bind_error h]
  rfl

/-- What lies behind the contents is counted. -/
theorem decode_of_reads {rest : List UInt8} (h : readContents.Reads taken c) :
    decode (taken ++ rest) = if rest = [] then .ok c else .error (.trailingBytes rest.length) := by
  have hread : read ⟨taken ++ rest, 0⟩ = (do finish; return c) ⟨rest, 0 + taken.length⟩ := by
    rw [read_eq, h.bind_apply]
  rw [decode, run, hread, bind_apply, finish]
  split_ifs <;> rfl

/-- An attribute of a field, of a method or of the type itself that is met. -/
inductive MeetsInTables (pool : ConstantPool) (name : String) (body : List UInt8) :
    Holder → List UInt8 → Prop
  | field {bytes : List UInt8} (h : InList (Member.read pool) (Member.Meets pool name body) bytes) :
      MeetsInTables pool name body .member bytes
  | method {bytes : List UInt8} (h : Behind (counted (Member.read pool))
        (fun _ => InList (Member.read pool) (Member.Meets pool name body)) bytes) :
      MeetsInTables pool name body .member bytes
  | type {bytes : List UInt8} (h : Behind (counted (Member.read pool))
        (fun _ => Behind (counted (Member.read pool))
          fun _ => Attributes.Meets .type pool name body) bytes) :
      MeetsInTables pool name body .type bytes

theorem readTables_settles (head : ClassFile) : (readTables head).Settles fun taken e =>
    ∃ holder, Reported holder (fun name body => MeetsInTables head.pool name body holder taken)
      e := by
  have hmembers := counted_settles (Member.read_settles head.pool)
  refine hmembers.bind (fun taken e h => ?_) fun first fields hfirst => ?_
  · exact ⟨.member, (Reported.of_inList h).mono fun _ _ => .field⟩
  refine hmembers.bind (fun taken e h => ?_) fun second methods hsecond => ?_
  · exact ⟨.member, (Reported.of_inList h).mono fun _ _ h => .method (.intro hfirst h)⟩
  refine (Attributes.read_settles .type head.pool).bind (fun taken e h => ?_) fun _ _ _ => .pure _
  exact ⟨.type, h.mono fun _ _ h => .type (.intro hfirst (.intro hsecond h))⟩

theorem readTables_fails {head : ClassFile} (hkind : Kind.of? holder name = some kind)
    (hlength : body.length ≠ kind.announced body)
    (h : MeetsInTables head.pool name body holder bytes) :
    (readTables head).Fails bytes (kind.Blamed head.pool name body) := by
  have hmembers : ∀ taken, InList (Member.read head.pool) (Member.Meets head.pool name body) taken →
      Kind.of? .member name = some kind →
      (counted (Member.read head.pool)).Fails taken (kind.Blamed head.pool name body) :=
    fun taken h hkind => h.counted_fails fun _ => Member.read_fails hkind hlength
  cases h with
  | field h => exact (hmembers _ h hkind).bind
  | method h => exact h.fails fun _ _ h => (hmembers _ h hkind).bind
  | type h =>
    exact h.fails fun _ _ h => h.fails fun _ _ h => (Attributes.read_fails hkind hlength h).bind

theorem readMagic_settles : readMagic.Settles fun _ e => e.OfContents := by
  refine u4_settles.andThen fun _ word _ => ?_
  split
  · exact .pure _
  · exact throw_settles trivial

theorem readHead_settles : readHead.Settles fun _ e => e.OfContents := by
  refine readMagic_settles.bind (fun _ _ h => h) fun _ _ _ => u2_settles.andThen fun _ _ _ =>
    u2_settles.andThen fun _ _ _ => ConstantPool.read_settles.bind (fun _ _ h => h) fun _ pool _ =>
    u2_settles.andThen fun _ _ _ => (readClassName_settles pool).bind (fun _ _ h => h) fun _ _ _ =>
    u2_settles.andThen fun _ _ _ => lift_bind_settles ?_ fun _ _ => ?_
  · exact fun _ h => (ConstantPool.misses_of_className? h).ofContents
  refine (counted_settles (readClassName_settles pool)).bind (fun _ e h => ?_) fun _ _ _ => .pure _
  obtain ⟨_, he⟩ := h.exists_within
  exact he

/-- The bytes up to the end of the body of an attribute, of the type itself or of a member. -/
def Meets (pool : ConstantPool) (holder : Holder) (name : String) (body : List UInt8) :
    List UInt8 → Prop :=
  Behind readHead fun head taken => head.pool = pool ∧ MeetsInTables pool name body holder taken

/-- An attribute of a kind that is read is met in some bytes, and the length of its body is another
one than its contents announce. -/
inductive Misfit (pool : ConstantPool) (name : String) (kind : Kind) (body : List UInt8) :
    List UInt8 → Prop
  | intro {holder : Holder} {taken rest : List UInt8} (hmeets : Meets pool holder name body taken)
      (hkind : Kind.of? holder name = some kind) (hlength : body.length ≠ kind.announced body) :
      Misfit pool name kind body (taken ++ rest)

theorem readContents_settles : readContents.Settles fun taken e =>
    e.OfContents ∨ ∃ pool name kind body, Misfit pool name kind body taken ∧
      e = kind.fault name body := by
  refine readHead_settles.bind (fun _ _ => .inl) fun first head hfirst => ?_
  refine (readTables_settles head).mono fun taken e => ?_
  rintro ⟨holder, h | ⟨name, kind, body, hmeets, hkind, hlength, he⟩⟩
  · exact .inl h
  · refine .inr ⟨head.pool, name, kind, body, ?_, he⟩
    rw [← List.append_nil (first ++ taken)]
    exact .intro (.intro hfirst ⟨rfl, hmeets⟩) hkind hlength

theorem Misfit.append (h : Misfit pool name kind body taken) (rest : List UInt8) :
    Misfit pool name kind body (taken ++ rest) := by
  obtain ⟨hmeets, hkind, hlength⟩ := h
  rw [List.append_assoc]
  exact .intro hmeets hkind hlength

theorem Misfit.decode (h : Misfit pool name kind body bytes) :
    ∃ e, decode bytes = .error e ∧ kind.Blamed pool name body e := by
  cases h with
  | @intro holder taken rest hmeets hkind hlength =>
    have hfails : readContents.Fails taken (kind.Blamed pool name body) := by
      refine Behind.fails hmeets fun head taken ⟨hpool, htables⟩ => ?_
      subst hpool
      exact readTables_fails hkind hlength htables
    obtain ⟨e, hblamed, herror⟩ := hfails
    exact ⟨e, decode_of_error (herror rest 0), hblamed⟩

/-- Bytes are missing at this place of an input: all in front of it were taken, and behind it more
are asked for than there are. -/
def EndsEarly (bytes : List UInt8) (offset : Nat) : Prop :=
  ∃ taken left count, bytes = taken ++ left ∧ taken.length = offset ∧ left.length < count ∧
    read.Asks taken count

theorem EndsEarly.of_asks {left : List UInt8} {count : Nat} (h : readContents.Asks taken count)
    (hleft : left.length < count) : EndsEarly (taken ++ left) taken.length := by
  refine ⟨taken, left, count, rfl, rfl, hleft, ?_⟩
  rw [read_eq]
  refine h.bind readContents_settles fun first c _ rest offset place herror => ?_
  -- At the end it is only counted what is left.
  rw [bind_apply, finish] at herror
  split_ifs at herror <;> cases herror

theorem EndsEarly.decode {offset : Nat} (h : EndsEarly bytes offset) :
    decode bytes = .error (.unexpectedEnd offset) := by
  obtain ⟨taken, left, count, rfl, rfl, hleft, hasks⟩ := h
  rw [ClassFile.decode, run, hasks.short left hleft 0, Nat.zero_add]
  rfl

/-- The ways in which decoding fails. -/
theorem of_decode_error (h : decode bytes = .error e) :
    (∃ offset, e = .unexpectedEnd offset ∧ EndsEarly bytes offset) ∨
    (∃ count, e = .trailingBytes count) ∨ e.OfContents ∨
    ∃ pool name kind body, Misfit pool name kind body bytes ∧ e = kind.fault name body := by
  cases readContents_settles bytes with
  | reads hbytes hreads =>
    rw [hbytes, decode_of_reads hreads] at h
    split_ifs at h
    cases h
    exact .inr (.inl ⟨_, rfl⟩)
  | asks hbytes hleft hasks =>
    have hearly := EndsEarly.of_asks hasks hleft
    rw [← hbytes] at hearly
    rw [hearly.decode] at h
    cases h
    exact .inl ⟨_, rfl, hearly⟩
  | @fails taken rest hbytes hfails =>
    obtain ⟨e', hbad, herror⟩ := hfails
    rw [hbytes, decode_of_error (herror rest 0)] at h
    cases h
    subst hbytes
    obtain hcontents | ⟨pool, name, kind, body, hmisfit, he⟩ := hbad
    · exact .inr (.inr (.inl hcontents))
    · exact .inr (.inr (.inr ⟨pool, name, kind, body, hmisfit.append rest, he⟩))

theorem reads_of_decode (h : decode bytes = .ok c) : readContents.Reads bytes c := by
  cases hread : readContents ⟨bytes, 0⟩ with
  | error e =>
    rw [decode_of_error hread] at h
    cases h
  | ok r =>
    obtain ⟨taken, rfl, hreads⟩ := readContents_settles.of_ok hread
    rw [decode_of_reads hreads] at h
    split_ifs at h with hrest
    cases h
    rw [hrest, List.append_nil]
    exact hreads

/-- An artifact that is cut anywhere ends too early, and no byte may follow it. -/
theorem artifacts_end_exactly (h : decode bytes = .ok c) :
    (∀ cut, cut <+: bytes → cut ≠ bytes →
      ∃ offset ≤ cut.length, decode cut = .error (.unexpectedEnd offset)) ∧
    ∀ more, more ≠ [] → decode (bytes ++ more) = .error (.trailingBytes more.length) := by
  have hreads := reads_of_decode h
  constructor
  · rintro cut ⟨rest, rfl⟩ hne
    have hrest : rest ≠ [] := by
      rintro rfl
      exact hne (List.append_nil cut).symm
    obtain ⟨taken, left, count, rfl, hleft, hasks⟩ :=
      readContents_settles.exists_asks_of_cut hreads hrest
    exact ⟨taken.length, by simp, (EndsEarly.of_asks hasks hleft).decode⟩
  · intro more hmore
    rw [decode_of_reads hreads, if_neg hmore]

/-- The class `A` with nothing in it. -/
def plain : List UInt8 :=
  [0xCA, 0xFE, 0xBA, 0xBE, 0, 0, 0, 52,
    0, 3, 1, 0, 1, 65, 7, 0, 1,
    0, 33, 0, 2, 0, 0, 0, 0, 0, 0, 0, 0, 0, 0]

def plainClass : ClassFile where
  minorVersion := 0
  majorVersion := 52
  access := 33
  thisClass := "A"
  superClass := none
  interfaces := []
  fields := []
  methods := []
  signature := none
  innerClasses := []
  pool := ⟨[.unusable, .utf8 "A", .classRef 1]⟩

theorem plain_ends_exactly : decode plain = .ok plainClass ∧
    (∃ offset ≤ 17, decode (plain.take 17) = .error (.unexpectedEnd offset)) ∧
    decode (plain ++ [0, 0]) = .error (.trailingBytes 2) := by
  have hread : decode plain = .ok plainClass := by decide +kernel
  obtain ⟨hcut, hmore⟩ := artifacts_end_exactly hread
  exact ⟨hread, hcut (plain.take 17) (List.take_prefix 17 plain) (by decide),
    hmore [0, 0] (by decide)⟩

/-- A body that does not fit is reported, unless an entry that its contents need is missing. A short
list is reported as the end of the input, at a place within its body. -/
theorem body_lengths_reported (bytes : List UInt8) :
    (∀ pool name kind body, Misfit pool name kind body bytes →
      ∃ e, decode bytes = .error e ∧ kind.Blamed pool name body e) ∧
    (∀ offset, decode bytes = .error (.unexpectedEnd offset) → EndsEarly bytes offset ∨
      ∃ pool name kind body, Misfit pool name kind body bytes ∧ kind ≠ .signature ∧
        body.length < kind.announced body ∧ offset = body.length / 2 * 2) ∧
    ∀ name, decode bytes = .error (.malformedAttribute name) →
      ∃ pool kind body, Misfit pool name kind body bytes ∧
        (kind = .signature ∨ kind.announced body < body.length) := by
  refine ⟨fun _ _ _ _ => Misfit.decode, fun offset herror => ?_, fun name herror => ?_⟩
  · obtain ⟨_, he, hearly⟩ | ⟨_, he⟩ | hcontents | ⟨pool, name, kind, body, hmisfit, he⟩ :=
      of_decode_error herror
    · cases he
      exact .inl hearly
    · cases he
    · cases hcontents
    · rw [Kind.fault] at he
      split_ifs at he with hshort
      cases he
      exact .inr ⟨pool, name, kind, body, hmisfit, hshort.1, hshort.2, rfl⟩
  · obtain ⟨_, he, _⟩ | ⟨_, he⟩ | hcontents | ⟨pool, name', kind, body, hmisfit, he⟩ :=
      of_decode_error herror
    · cases he
    · cases he
    · cases hcontents
    · rw [Kind.fault] at he
      split_ifs at he with hshort
      cases he
      refine ⟨pool, kind, body, hmisfit, ?_⟩
      obtain ⟨_, _, hlength⟩ := hmisfit
      rcases eq_or_ne kind .signature with hkind | hkind
      · exact .inl hkind
      · have hle : ¬ body.length < kind.announced body := fun hlt => hshort ⟨hkind, hlt⟩
        exact .inr (by omega)

/-- The class `A` with a list of nested classes that announces one and breaks off. -/
def shortList : List UInt8 :=
  [0xCA, 0xFE, 0xBA, 0xBE, 0, 0, 0, 52,
    0, 4, 1, 0, 1, 65, 7, 0, 1, 1, 0, 12, 73, 110, 110, 101, 114, 67, 108, 97, 115, 115, 101, 115,
    0, 33, 0, 2, 0, 0, 0, 0, 0, 0, 0, 0,
    0, 1, 0, 3, 0, 0, 0, 2, 0, 1]

theorem decode_shortList : decode shortList = .error (.unexpectedEnd 2) := by decide +kernel

/-- At the second byte nothing is missing: with the two bytes behind it, more are asked for. -/
theorem not_endsEarly_shortList : ¬ EndsEarly shortList 2 := by
  rintro ⟨taken, left, count, hbytes, htaken, hleft, hasks⟩
  have hmagic : taken = [0xCA, 0xFE] := by
    have htake : taken = shortList.take 2 := by rw [hbytes, List.take_left' htaken]
    exact htake
  have hlength : shortList.length = 2 + left.length := by
    rw [hbytes, List.length_append, htaken]
  have hcount : 2 < count := by
    have : shortList.length = 54 := rfl
    omega
  have hmore : decode (taken ++ [0xBA, 0xBE]) = .error (.unexpectedEnd 2) :=
    EndsEarly.decode ⟨taken, _, count, rfl, htaken, hcount, hasks⟩
  rw [hmagic] at hmore
  exact absurd hmore (by decide +kernel)

/-- A list that breaks off within its body is not told from an input that ends. -/
theorem short_list_taken_for_end :
    decode shortList = .error (.unexpectedEnd 2) ∧ ¬ EndsEarly shortList 2 :=
  ⟨decode_shortList, not_endsEarly_shortList⟩

theorem short_list_misfits : decode shortList = .error (.unexpectedEnd 2) ∧
    ∃ pool name kind body, Misfit pool name kind body shortList ∧ kind ≠ .signature ∧
      body.length < kind.announced body ∧ 2 = body.length / 2 * 2 :=
  ⟨decode_shortList,
    ((body_lengths_reported shortList).2.1 2 decode_shortList).resolve_left not_endsEarly_shortList⟩

end ClassFile

end Artifact

end Rebuild
