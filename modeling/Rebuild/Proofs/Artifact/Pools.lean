import Mathlib
import Rebuild.Proofs.Artifact.Reading
import Rebuild.Proofs.Text.Utf8

/-! Constant pools, written and read back. Writing only adds entries, so what an index stands for
when it is written is what it stands for in the pool that is decoded in the end. Main statements:
a written pool is read entry by entry, and the indices of texts and of classes lead to them. -/
namespace Rebuild.Artifact

open Reader Writer

variable {α β : Type}

/-! ## Entries -/

/-- Decoding the bytes of an entry yields this constant, which takes one place. -/
structure Writer.PoolEntry.Denotes (entry : PoolEntry) (constant : Constant) : Prop where
  reads : ∀ index, (Constant.read index).Reads (entry.tag :: entry.payload) constant
  usable : constant ≠ .unusable
  narrow : constant.isWide = false

/-- What the constant pool can hold of texts: no NUL, and a length of two bytes. -/
structure Storable (text : String) : Prop where
  no_nul : '\x00' ∉ text.toList
  short : (Text.Utf8.encode text).length < 65536

instance (text : String) : Decidable (Storable text) :=
  decidable_of_iff ('\x00' ∉ text.toList ∧ (Text.Utf8.encode text).length < 65536)
    ⟨fun h => ⟨h.1, h.2⟩, fun h => ⟨h.no_nul, h.short⟩⟩

namespace Writer.PoolEntry.Denotes

theorem unique {entry : PoolEntry} {constant constant' : Constant} (h : entry.Denotes constant)
    (h' : entry.Denotes constant') : constant = constant' :=
  (h.reads 0).unique (h'.reads 0)

theorem utf8 {text : String} (h : Storable text) :
    Denotes ⟨1, u2 (Text.Utf8.encode text).length ++ Text.Utf8.encode text⟩ (.utf8 text) where
  reads index := by
    apply (u1_reads 1).bind
    apply (u2_reads h.short).bind
    apply (bytes_reads (Text.Utf8.encode text)).bind_nil
    rw [Text.ModifiedUtf8.decode?_utf8 h.no_nul]
    exact Reads.pure _
  usable := nofun
  narrow := rfl

theorem classRef (name : Nat) : Denotes ⟨7, u2 name⟩ (.classRef (name % 65536)) where
  reads _ := (u1_reads 7).bind ((u2_reads_mod name).bind_pure Constant.classRef)
  usable := nofun
  narrow := rfl

theorem nameAndType (name descriptor : Nat) : Denotes ⟨12, u2 name ++ u2 descriptor⟩
    (.nameAndType (name % 65536) (descriptor % 65536)) where
  reads _ := (u1_reads 12).bind (u2_pair_reads_mod Constant.nameAndType name descriptor)
  usable := nofun
  narrow := rfl

theorem methodType (descriptor : Nat) :
    Denotes ⟨16, u2 descriptor⟩ (.methodType (descriptor % 65536)) where
  reads _ := (u1_reads 16).bind ((u2_reads_mod descriptor).bind_pure Constant.methodType)
  usable := nofun
  narrow := rfl

theorem fieldRef (owner nameAndType : Nat) : Denotes ⟨9, u2 owner ++ u2 nameAndType⟩
    (.fieldRef (owner % 65536) (nameAndType % 65536)) where
  reads _ := (u1_reads 9).bind (u2_pair_reads_mod Constant.fieldRef owner nameAndType)
  usable := nofun
  narrow := rfl

theorem methodRef (owner nameAndType : Nat) : Denotes ⟨10, u2 owner ++ u2 nameAndType⟩
    (.methodRef (owner % 65536) (nameAndType % 65536)) where
  reads _ := (u1_reads 10).bind (u2_pair_reads_mod Constant.methodRef owner nameAndType)
  usable := nofun
  narrow := rfl

theorem interfaceMethodRef (owner nameAndType : Nat) :
    Denotes ⟨11, u2 owner ++ u2 nameAndType⟩
      (.interfaceMethodRef (owner % 65536) (nameAndType % 65536)) where
  reads _ := (u1_reads 11).bind (u2_pair_reads_mod Constant.interfaceMethodRef owner nameAndType)
  usable := nofun
  narrow := rfl

/-- A reference to a member, of one of the three kinds. -/
theorem memberRef {tag : UInt8} (htag : tag = 9 ∨ tag = 10 ∨ tag = 11) (owner nameAndType : Nat) :
    ∃ constant, Denotes ⟨tag, u2 owner ++ u2 nameAndType⟩ constant := by
  obtain rfl | rfl | rfl := htag
  · exact ⟨_, fieldRef owner nameAndType⟩
  · exact ⟨_, methodRef owner nameAndType⟩
  · exact ⟨_, interfaceMethodRef owner nameAndType⟩

end Writer.PoolEntry.Denotes

/-! ## Whole pools -/

namespace Writer.Pool

/-- Every entry can be decoded. -/
def Sound (p : Pool) : Prop := ∀ entry ∈ p.entries, ∃ constant, entry.Denotes constant

/-- The pool that decoding a written pool yields, where the number of its places takes two bytes. -/
structure DecodesTo (p : Pool) (pool : ConstantPool) : Prop where
  fits : p.entries.length < 65535
  entries : ∃ constants, pool.entries = .unusable :: constants ∧
    List.Forall₂ PoolEntry.Denotes p.entries constants

theorem Sound.exists_decodesTo {p : Pool} (h : p.Sound) (hfits : p.entries.length < 65535) :
    ∃ pool, p.DecodesTo pool := by
  suffices hall : ∃ constants, List.Forall₂ PoolEntry.Denotes p.entries constants by
    obtain ⟨constants, hconstants⟩ := hall
    exact ⟨⟨.unusable :: constants⟩, hfits, constants, rfl, hconstants⟩
  unfold Sound at h
  generalize p.entries = entries at h
  induction entries with
  | nil => exact ⟨[], .nil⟩
  | cons entry entries ih =>
    obtain ⟨constant, hconstant⟩ := h entry List.mem_cons_self
    obtain ⟨constants, hconstants⟩ := ih fun e he => h e (List.mem_cons_of_mem entry he)
    exact ⟨constant :: constants, .cons hconstant hconstants⟩

end Writer.Pool

/-- Entries of one place each, in front of the last places. -/
theorem ConstantPool.readPlaces_reads_append {entries : List PoolEntry}
    {constants last : List Constant} {bytes : List UInt8} {left : Nat} (count : Nat)
    (h : List.Forall₂ PoolEntry.Denotes entries constants)
    (hlast : (readPlaces count left false).Reads bytes last) :
    (readPlaces count (constants.length + left) false).Reads
      ((entries.flatMap fun e => e.tag :: e.payload) ++ bytes) (constants ++ last) := by
  induction h with
  | nil =>
    rw [List.length_nil, Nat.zero_add]
    exact hlast
  | @cons entry constant entries constants hfirst _ ih =>
    rw [List.flatMap_cons, List.append_assoc, List.length_cons, Nat.succ_add]
    apply (hfirst.reads _).bind
    rw [hfirst.narrow]
    exact ih.bind_pure (constant :: ·)

theorem ConstantPool.readPlaces_reads {entries : List PoolEntry} {constants : List Constant}
    (count : Nat) (h : List.Forall₂ PoolEntry.Denotes entries constants) :
    (readPlaces count constants.length false).Reads
      (entries.flatMap fun e => e.tag :: e.payload) constants := by
  have hnone : (readPlaces count 0 false).Reads [] [] := Reads.pure []
  have hall := readPlaces_reads_append count h hnone
  rwa [List.append_nil, List.append_nil] at hall

/-- A written pool is read, whatever follows. -/
theorem ConstantPool.read_reads {p : Pool} {pool : ConstantPool} (h : p.DecodesTo pool) :
    ConstantPool.read.Reads (poolBytes p) pool := by
  obtain ⟨constants, hentries, hall⟩ := h.entries
  have hpool : pool = ⟨.unusable :: constants⟩ := by rw [← hentries]
  have hfits := h.fits
  subst hpool
  apply (u2_reads (show p.entries.length + 1 < 65536 by omega)).bind
  rw [Nat.add_sub_cancel, hall.length_eq]
  exact (readPlaces_reads _ hall).bind_pure (fun entries => ConstantPool.mk (.unusable :: entries))

/-! ## Indices -/

namespace ConstantPool

/-- An index of two bytes at which the pool has this constant. -/
structure Has (pool : ConstantPool) (index : Nat) (constant : Constant) : Prop where
  pos : 0 < index
  short : index < 65536
  get : pool.get index = .ok constant

def HasText (pool : ConstantPool) (index : Nat) (text : String) : Prop :=
  pool.Has index (.utf8 text)

def HasClass (pool : ConstantPool) (index : Nat) (name : String) : Prop :=
  ∃ text, pool.Has index (.classRef text) ∧ pool.HasText text name

variable {pool : ConstantPool} {index : Nat} {text name : String}

theorem HasText.text_eq (h : pool.HasText index text) : pool.text index = .ok text := by
  unfold ConstantPool.text
  rw [h.get]
  rfl

theorem HasText.text?_eq (h : pool.HasText index text) : pool.text? index = .ok (some text) := by
  unfold text?
  rw [if_neg h.pos.ne', h.text_eq]
  rfl

theorem HasClass.short (h : pool.HasClass index name) : index < 65536 := by
  obtain ⟨text, hindex, _⟩ := h
  exact hindex.short

theorem HasClass.className_eq (h : pool.HasClass index name) : pool.className index = .ok name := by
  obtain ⟨text, hindex, htext⟩ := h
  unfold className
  rw [hindex.get]
  exact htext.text_eq

theorem HasClass.className?_eq (h : pool.HasClass index name) :
    pool.className? index = .ok (some name) := by
  have hpos : 0 < index := by
    obtain ⟨text, hindex, _⟩ := h
    exact hindex.pos
  unfold className?
  rw [if_neg hpos.ne', h.className_eq]
  rfl

end ConstantPool

/-- What an entry was written for is found at its index, which is one above its position. -/
theorem Writer.Pool.DecodesTo.has {p : Pool} {pool : ConstantPool} (h : p.DecodesTo pool)
    {position : Nat} {entry : PoolEntry} {constant : Constant}
    (hentry : p.entries[position]? = some entry) (hconstant : entry.Denotes constant) :
    pool.Has (position + 1) constant := by
  obtain ⟨constants, hentries, hall⟩ := h.entries
  obtain ⟨hposition, rfl⟩ := List.getElem?_eq_some_iff.1 hentry
  have hposition' : position < constants.length := hall.length_eq ▸ hposition
  have hsame : constants[position] = constant := (hall.get hposition hposition').unique hconstant
  have hplace : pool.entries[position + 1]? = some constant := by
    rw [hentries, List.getElem?_cons_succ, List.getElem?_eq_getElem hposition', hsame]
  have hfits := h.fits
  refine ⟨Nat.succ_pos position, by omega, ?_⟩
  unfold ConstantPool.get
  rw [hplace]
  split
  · contradiction
  · next heq =>
    cases heq
    exact absurd rfl hconstant.usable
  · next heq =>
    cases heq
    rfl

/-! ## Writing -/

namespace Writer

/-- What writing does: it keeps the entries there are, adds only what can be decoded, and what it
yields is right in the pool that is decoded in the end, however many entries are added later. -/
structure Writes (write : WriteM α) (right : ConstantPool → α → Prop) : Prop where
  grows : ∀ p, p.entries <+: (write.run p).2.entries
  sound : ∀ p, p.Sound → (write.run p).2.Sound
  holds : ∀ (p last : Pool) pool, (write.run p).2.entries <+: last.entries → last.DecodesTo pool →
    right pool (write.run p).1

variable {write : WriteM α} {next : α → WriteM β} {right : ConstantPool → α → Prop}
  {right' : ConstantPool → β → Prop}

namespace Writes

theorem pure {a : α} (h : ∀ pool, right pool a) : Writes (pure a) right where
  grows _ := List.prefix_rfl
  sound _ hp := hp
  holds _ _ pool _ _ := h pool

theorem mono {weaker : ConstantPool → α → Prop} (h : Writes write right)
    (hle : ∀ pool a, right pool a → weaker pool a) : Writes write weaker where
  grows := h.grows
  sound := h.sound
  holds p last pool hlast hpool := hle pool _ (h.holds p last pool hlast hpool)

/-- Later steps may rely on what earlier steps have yielded. -/
theorem bind (h : Writes write right)
    (hnext : ∀ a, Writes (next a) fun pool b => right pool a → right' pool b) :
    Writes (write >>= next) right' where
  grows p := (h.grows p).trans ((hnext _).grows _)
  sound p hp := (hnext _).sound _ (h.sound p hp)
  holds p last pool hlast hpool :=
    (hnext _).holds _ last pool hlast hpool
      (h.holds p last pool (((hnext _).grows _).trans hlast) hpool)

theorem mapM {ι : Type} {write : ι → WriteM α} {right : ι → ConstantPool → α → Prop}
    (items : List ι) (h : ∀ i ∈ items, Writes (write i) (right i)) :
    Writes (items.mapM write) fun pool as => List.Forall₂ (fun i a => right i pool a) items as := by
  induction items with
  | nil => exact Writes.pure fun _ => .nil
  | cons i items ih =>
    rw [List.mapM_cons]
    apply (h i List.mem_cons_self).bind
    intro a
    apply (ih fun j hj => h j (List.mem_cons_of_mem i hj)).bind
    intro as
    exact Writes.pure fun _ hall hfirst => .cons hfirst hall

end Writes

theorem run_intern (entry : PoolEntry) (p : Pool) : (intern entry).run p =
    match p.entries.idxOf? entry with
    | some position => (position + 1, p)
    | none => (p.entries.length + 1, ⟨p.entries ++ [entry]⟩) := by
  unfold intern
  cases h : p.entries.idxOf? entry <;> simp [h] <;> rfl

/-- An entry is found at its index, whether it was there before or is new. -/
theorem exists_run_intern (entry : PoolEntry) (p : Pool) : ∃ position q,
    (intern entry).run p = (position + 1, q) ∧ p.entries <+: q.entries ∧
      q.entries[position]? = some entry ∧ ∀ e ∈ q.entries, e ∈ p.entries ∨ e = entry := by
  have hrun := run_intern entry p
  cases hfound : p.entries.idxOf? entry with
  | some i =>
    obtain ⟨hi, hentry, _⟩ := List.idxOf?_eq_some_iff.1 hfound
    refine ⟨i, p, by rw [hrun, hfound], List.prefix_rfl, ?_, fun e he => .inl he⟩
    rw [List.getElem?_eq_getElem hi, hentry]
  | none =>
    refine ⟨p.entries.length, _, by rw [hrun, hfound], List.prefix_append _ _, by simp, ?_⟩
    intro e he
    simpa using he

theorem intern_writes {entry : PoolEntry} {constant : Constant} (h : entry.Denotes constant) :
    Writes (intern entry) fun pool index => pool.Has index constant where
  grows p := by
    obtain ⟨position, q, hrun, hprefix, _⟩ := exists_run_intern entry p
    rw [hrun]
    exact hprefix
  sound p hp := by
    obtain ⟨position, q, hrun, _, _, hmem⟩ := exists_run_intern entry p
    rw [hrun]
    intro e he
    obtain hold | rfl := hmem e he
    · exact hp e hold
    · exact ⟨constant, h⟩
  holds p last pool hlast hpool := by
    obtain ⟨position, q, hrun, _, hentry, _⟩ := exists_run_intern entry p
    rw [hrun] at hlast ⊢
    obtain ⟨hposition, hentry⟩ := List.getElem?_eq_some_iff.1 hentry
    have hkept := List.prefix_iff_getElem?.1 hlast position hposition
    rw [hentry] at hkept
    exact hpool.has hkept h

/-- The index of a text. -/
theorem utf8_writes {text : String} (h : Storable text) :
    Writes (utf8 text) fun pool index => pool.HasText index text :=
  intern_writes (.utf8 h)

/-- The index of a class. -/
theorem classRef_writes {name : String} (h : Storable name) :
    Writes (classRef name) fun pool index => pool.HasClass index name := by
  apply (utf8_writes h).bind
  intro text
  apply (intern_writes (.classRef text)).mono
  intro pool index hindex htext
  rw [Nat.mod_eq_of_lt htext.short] at hindex
  exact ⟨text, hindex, htext⟩

/-- Index zero stands for nothing. -/
theorem optional_writes {write : String → WriteM Nat} {text? : Option String}
    {right : ConstantPool → Nat → Option String → Prop} (hnone : ∀ pool, right pool 0 none)
    (hsome : ∀ text ∈ text?, Writes (write text) fun pool index => right pool index (some text)) :
    Writes (optional write text?) fun pool index => right pool index text? := by
  cases text? with
  | none => exact Writes.pure hnone
  | some text => exact hsome text rfl

theorem optional_classRef_writes {name? : Option String} (h : ∀ name ∈ name?, Storable name) :
    Writes (optional classRef name?) fun pool index =>
      index < 65536 ∧ pool.className? index = .ok name? := by
  apply optional_writes
  · intro pool
    exact ⟨by decide, rfl⟩
  · intro name hname
    apply (classRef_writes (h name hname)).mono
    intro pool index hclass
    exact ⟨hclass.short, hclass.className?_eq⟩

theorem optional_utf8_writes {text? : Option String} (h : ∀ text ∈ text?, Storable text) :
    Writes (optional utf8 text?) fun pool index =>
      index < 65536 ∧ pool.text? index = .ok text? := by
  apply optional_writes
  · intro pool
    exact ⟨by decide, rfl⟩
  · intro text htext
    apply (utf8_writes (h text htext)).mono
    intro pool index hindex
    exact ⟨hindex.short, hindex.text?_eq⟩

theorem memberRef_writes {tag : UInt8} {owner name descriptor : String}
    (htag : tag = 9 ∨ tag = 10 ∨ tag = 11) (howner : Storable owner) (hname : Storable name)
    (hdescriptor : Storable descriptor) :
    Writes (memberRef tag owner name descriptor) fun _ _ => True := by
  apply (classRef_writes howner).bind
  intro owner
  apply (utf8_writes hname).bind
  intro name
  apply (utf8_writes hdescriptor).bind
  intro descriptor
  apply (intern_writes (.nameAndType name descriptor)).bind
  intro nameAndType
  obtain ⟨constant, hconstant⟩ := PoolEntry.Denotes.memberRef htag owner nameAndType
  exact (intern_writes hconstant).mono fun _ _ _ _ _ _ _ => trivial

end Writer

end Rebuild.Artifact
