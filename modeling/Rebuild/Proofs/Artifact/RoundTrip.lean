import Mathlib
import Rebuild.Proofs.Artifact.Pools

/-! Decoding undoes encoding. What is written of each part of an artifact is read as this part in
every pool that holds what the indices were written for. Main statement: an artifact within the
limits of the format is decoded to what it was encoded from. -/
namespace Rebuild.Artifact

open Reader Writer

/-! ## Limits of the format -/

def Member.strings (m : Member) : List String :=
  m.name :: m.descriptor :: (m.signature.toList ++ m.thrown)

def InnerClass.strings (entry : InnerClass) : List String :=
  entry.inner :: (entry.outer.toList ++ entry.name.toList)

def Symbol.strings : Symbol → List String
  | .type name => [name]
  | .field owner name descriptor | .method owner name descriptor
  | .interfaceMethod owner name descriptor => [owner, name, descriptor]
  | .methodType descriptor => [descriptor]

namespace ClassDescription

/-- All texts of a description. -/
def strings (c : ClassDescription) : List String :=
  c.thisClass :: (c.superClass.toList ++ c.interfaces ++ c.signature.toList
    ++ (c.fields ++ c.methods).flatMap Member.strings ++ c.symbols.flatMap Symbol.strings
    ++ c.innerClasses.flatMap InnerClass.strings)

/-- What the format can hold: texts without NUL, lengths of two bytes, and a pool whose count of
places, one more than there are entries, takes two bytes as well. -/
structure Encodable (c : ClassDescription) : Prop where
  strings : ∀ text ∈ c.strings, Storable text
  interfaces : c.interfaces.length < 65536
  fields : c.fields.length < 65536
  methods : c.methods.length < 65536
  thrown : ∀ m ∈ c.fields ++ c.methods, m.thrown.length < 65536
  innerClasses : c.innerClasses.length < 65536
  pool : ((Writer.body c).run {}).2.entries.length < 65535

/-- The artifact that a description stands for, in version 52.0 of the format. -/
def decoded (c : ClassDescription) (pool : ConstantPool) : ClassFile where
  minorVersion := 0
  majorVersion := 52
  access := c.access
  thisClass := c.thisClass
  superClass := c.superClass
  interfaces := c.interfaces
  fields := c.fields
  methods := c.methods
  signature := c.signature
  innerClasses := c.innerClasses
  pool := pool

end ClassDescription

/-! ## Attributes -/

namespace Attributes

variable {holder : Holder} {pool : ConstantPool} {kept kept' : Attributes}

theorem readClassName_reads {index : Nat} {name : String} (h : pool.HasClass index name) :
    (readClassName pool).Reads (u2 index) name := by
  apply (u2_reads h.short).bind_nil
  rw [h.className_eq]
  exact Reads.pure name

/-- A list of classes. -/
theorem classNames_reads {indices : List Nat} {names : List String} (hlength : names.length < 65536)
    (h : List.Forall₂ (fun name index => pool.HasClass index name) names indices) :
    (counted (readClassName pool)).Reads (u2 names.length ++ indices.flatMap u2) names := by
  rw [List.flatMap_def]
  apply counted_reads hlength
  rw [List.forall₂_map_left_iff]
  exact (h.imp fun _ _ => readClassName_reads).flip

theorem readBody_eq {α : Type} {reader : Reader α} {body : List UInt8} {a : α} (name : String)
    (h : reader.ReadsAll body a) : readBody name reader body = .ok a := by
  unfold readBody
  rw [h]
  rfl

theorem signatureBody_reads {index : Nat} {text : String} (h : pool.HasText index text) :
    (signatureBody pool).Reads (u2 index) text := by
  intro rest offset
  unfold signatureBody
  rw [u2_reads h.short]
  show (pool.text index).map _ = _
  rw [h.text_eq]
  rfl

theorem add_signature {index : Nat} {text : String} (h : pool.HasText index text) :
    kept.add holder pool "Signature" (u2 index) = .ok { kept with signature := some text } := by
  unfold add
  rw [if_pos rfl, readBody_eq "Signature" (signatureBody_reads h).all]
  rfl

theorem add_thrown {body : List UInt8} {names : List String}
    (h : (counted (readClassName pool)).Reads body names) :
    kept.add .member pool "Exceptions" body = .ok { kept with thrown := kept.thrown ++ names } := by
  unfold add
  rw [if_neg (by decide), if_pos ⟨rfl, rfl⟩, readBody_eq "Exceptions" h.all]
  rfl

theorem add_innerClasses {body : List UInt8} {entries : List InnerClass}
    (h : (counted (readInnerClass pool)).Reads body entries) :
    kept.add .type pool "InnerClasses" body =
      .ok { kept with innerClasses := kept.innerClasses ++ entries } := by
  unfold add
  rw [if_neg (by decide), if_neg (by decide), if_pos ⟨rfl, rfl⟩, readBody_eq "InnerClasses" h.all]
  rfl

/-- Encoded attributes, one behind the other, and what they add to what is kept. -/
inductive Collect (holder : Holder) (pool : ConstantPool) :
    List (List UInt8) → Attributes → Attributes → Prop where
  | nil (kept : Attributes) : Collect holder pool [] kept kept
  | cons {index : Nat} {name : String} {body : List UInt8} {rest : List (List UInt8)}
      {kept kept' all : Attributes} : pool.HasText index name → body.length < 4294967296 →
      kept.add holder pool name body = .ok kept' → Collect holder pool rest kept' all →
      Collect holder pool (attributeBytes index body :: rest) kept all

namespace Collect

variable {first rest : List (List UInt8)} {all : Attributes}

theorem one {index : Nat} {name : String} {body : List UInt8} (hname : pool.HasText index name)
    (hbody : body.length < 4294967296) (hadd : kept.add holder pool name body = .ok kept') :
    Collect holder pool [attributeBytes index body] kept kept' :=
  .cons hname hbody hadd (.nil kept')

theorem append (h : Collect holder pool first kept kept')
    (h' : Collect holder pool rest kept' all) : Collect holder pool (first ++ rest) kept all := by
  induction h with
  | nil => exact h'
  | cons hname hbody hadd _ ih => exact .cons hname hbody hadd (ih h')

theorem readMore_reads (h : Collect holder pool rest kept all) :
    (readMore holder pool rest.length kept).Reads rest.flatten all := by
  induction h with
  | nil kept => exact Reads.pure kept
  | @cons index name body rest kept kept' all hname hbody hadd _ ih =>
    rw [List.flatten_cons, attributeBytes, List.append_assoc, List.append_assoc]
    apply (u2_reads hname.short).bind
    apply (u4_reads hbody).bind
    apply (bytes_reads body).bind
    exact Reads.lift_bind hname.text_eq (Reads.lift_bind hadd ih)

theorem read_reads (h : Collect holder pool rest {} all) (hlength : rest.length < 65536) :
    (Attributes.read holder pool).Reads (attributeTable rest) all :=
  (u2_reads hlength).bind h.readMore_reads

end Collect

end Attributes

open Attributes

namespace Writer

theorem signatureAttribute_writes {text? : Option String} (h : ∀ text ∈ text?, Storable text) :
    Writes (signatureAttribute text?) fun pool attributes => attributes.length ≤ 1 ∧
      ∀ holder kept, kept.signature = none →
        Collect holder pool attributes kept { kept with signature := text? } := by
  cases text? with
  | none =>
    apply Writes.pure
    intro pool
    refine ⟨Nat.zero_le 1, fun holder kept hkept => ?_⟩
    rw [← hkept]
    exact .nil kept
  | some text =>
    apply (utf8_writes (show Storable "Signature" by decide)).bind
    intro name
    apply (utf8_writes (h text rfl)).bind
    intro index
    apply Writes.pure
    intro pool htext hname
    refine ⟨Nat.le_refl 1, fun holder kept _ => ?_⟩
    exact .one hname (show 2 < 4294967296 by decide) (add_signature htext)

/-- Chunks of one size. -/
theorem flatten_length {chunks : List (List UInt8)} {size : Nat}
    (h : ∀ chunk ∈ chunks, chunk.length = size) : chunks.flatten.length = chunks.length * size := by
  rw [List.length_flatten, List.sum_eq_card_nsmul (chunks.map List.length) size]
  · rw [List.length_map, smul_eq_mul]
  · exact List.forall_mem_map.2 h

theorem thrownAttribute_writes {thrown : List String} (h : ∀ name ∈ thrown, Storable name)
    (hlength : thrown.length < 65536) :
    Writes (thrownAttribute thrown) fun pool attributes => attributes.length ≤ 1 ∧
      ∀ kept, Collect .member pool attributes kept
        { kept with thrown := kept.thrown ++ thrown } := by
  unfold thrownAttribute
  split
  · next hnone =>
    apply Writes.pure
    intro pool
    refine ⟨Nat.zero_le 1, fun kept => ?_⟩
    rw [hnone, List.append_nil]
    exact .nil kept
  · apply (Writes.mapM thrown fun name hname => classRef_writes (h name hname)).bind
    intro classes
    apply (utf8_writes (show Storable "Exceptions" by decide)).bind
    intro name
    apply Writes.pure
    intro pool hname hclasses
    refine ⟨Nat.le_refl 1, fun kept => ?_⟩
    have hbody : (u2 thrown.length ++ classes.flatMap u2).length < 4294967296 := by
      have hsize : (classes.map u2).flatten.length = (classes.map u2).length * 2 :=
        flatten_length (List.forall_mem_map.2 fun _ _ => rfl)
      rw [List.length_append, List.flatMap_def, hsize, List.length_map, ← hclasses.length_eq]
      show 2 + thrown.length * 2 < 4294967296
      omega
    exact .one hname hbody (add_thrown (classNames_reads hlength hclasses))

theorem innerClass_writes {entry : InnerClass} (h : ∀ text ∈ entry.strings, Storable text) :
    Writes (innerClass entry) fun pool bytes =>
      bytes.length = 8 ∧ (readInnerClass pool).Reads bytes entry := by
  simp only [InnerClass.strings, List.forall_mem_cons, List.forall_mem_append,
    Option.mem_toList] at h
  obtain ⟨hinner, houter, hname⟩ := h
  apply (classRef_writes hinner).bind
  intro inner
  apply (optional_classRef_writes houter).bind
  intro outer
  apply (optional_utf8_writes hname).bind
  intro name
  apply Writes.pure
  rintro pool ⟨hname, htext?⟩ ⟨houter, hclass?⟩ hinner
  refine ⟨rfl, ?_⟩
  rw [List.append_assoc, List.append_assoc]
  apply (readClassName_reads hinner).bind
  apply (u2_reads houter).bind
  apply Reads.lift_bind hclass?
  apply (u2_reads hname).bind
  apply Reads.lift_bind htext?
  apply (u2_reads_flags entry.access).bind_nil
  rw [UInt16.ofNat_toNat]
  exact Reads.pure entry

theorem innerClassesAttribute_writes {entries : List InnerClass}
    (h : ∀ entry ∈ entries, ∀ text ∈ entry.strings, Storable text)
    (hlength : entries.length < 65536) :
    Writes (innerClassesAttribute entries) fun pool attributes => attributes.length ≤ 1 ∧
      ∀ kept, Collect .type pool attributes kept
        { kept with innerClasses := kept.innerClasses ++ entries } := by
  unfold innerClassesAttribute
  split
  · next hnone =>
    apply Writes.pure
    intro pool
    refine ⟨Nat.zero_le 1, fun kept => ?_⟩
    rw [hnone, List.append_nil]
    exact .nil kept
  · apply (Writes.mapM entries fun entry hentry => innerClass_writes (h entry hentry)).bind
    intro bodies
    apply (utf8_writes (show Storable "InnerClasses" by decide)).bind
    intro name
    apply Writes.pure
    intro pool hname hbodies
    refine ⟨Nat.le_refl 1, fun kept => ?_⟩
    obtain ⟨hsize, hreads⟩ := (List.forall₂_and_left _ _).1 hbodies.flip
    have hbody : (u2 entries.length ++ bodies.flatten).length < 4294967296 := by
      rw [List.length_append, flatten_length hsize, ← hbodies.length_eq]
      show 2 + entries.length * 8 < 4294967296
      omega
    exact .one hname hbody (add_innerClasses (counted_reads hlength hreads))

/-! ## Members -/

theorem member_writes {m : Member} (h : ∀ text ∈ m.strings, Storable text)
    (hlength : m.thrown.length < 65536) :
    Writes (member m) fun pool bytes => (Member.read pool).Reads bytes m := by
  simp only [Member.strings, List.forall_mem_cons, List.forall_mem_append, Option.mem_toList] at h
  obtain ⟨hname, hdescriptor, hsignature, hthrown⟩ := h
  apply (utf8_writes hname).bind
  intro name
  apply (utf8_writes hdescriptor).bind
  intro descriptor
  apply (signatureAttribute_writes hsignature).bind
  intro signature
  apply (thrownAttribute_writes hthrown hlength).bind
  intro thrown
  apply Writes.pure
  rintro pool ⟨hcount, hthrown⟩ ⟨hcount', hsignature⟩ hdescriptor hname
  have hattributes : Collect .member pool (signature ++ thrown) {}
      { signature := m.signature, thrown := m.thrown } :=
    (hsignature .member {} rfl).append (hthrown _)
  have hfits : (signature ++ thrown).length < 65536 := by
    rw [List.length_append]
    omega
  rw [List.append_assoc, List.append_assoc]
  apply (u2_reads_flags m.access).bind
  apply (u2_reads hname.short).bind
  apply Reads.lift_bind hname.text_eq
  apply (u2_reads hdescriptor.short).bind
  apply Reads.lift_bind hdescriptor.text_eq
  apply (hattributes.read_reads hfits).bind_nil
  rw [UInt16.ofNat_toNat]
  exact Reads.pure m

theorem memberTable_writes {members : List Member}
    (h : ∀ m ∈ members, ∀ text ∈ m.strings, Storable text)
    (hthrown : ∀ m ∈ members, m.thrown.length < 65536) (hlength : members.length < 65536) :
    Writes (memberTable members) fun pool bytes =>
      (counted (Member.read pool)).Reads bytes members := by
  apply (Writes.mapM members fun m hm => member_writes (h m hm) (hthrown m hm)).bind
  intro bodies
  exact Writes.pure fun pool hbodies => counted_reads hlength hbodies.flip

theorem symbol_writes {s : Symbol} (h : ∀ text ∈ s.strings, Storable text) :
    Writes (symbol s) fun _ _ => True := by
  cases s with
  | type name =>
    have hname : Storable name := h name List.mem_cons_self
    exact (classRef_writes hname).mono fun _ _ _ => trivial
  | field owner name descriptor | method owner name descriptor
  | interfaceMethod owner name descriptor =>
    simp only [Symbol.strings, List.forall_mem_cons] at h
    exact memberRef_writes (by decide) h.1 h.2.1 h.2.2.1
  | methodType descriptor =>
    have hdescriptor : Storable descriptor := h descriptor List.mem_cons_self
    apply (utf8_writes hdescriptor).bind
    intro text
    exact (intern_writes (.methodType text)).mono fun _ _ _ _ => trivial

end Writer

/-! ## Artifacts -/

/-- What is read behind the constant pool. -/
def ClassFile.readBehind (minorVersion majorVersion : Nat) (pool : ConstantPool) :
    Reader ClassFile := do
  let access ← Reader.u2
  let thisClass ← Attributes.readClassName pool
  let superIndex ← Reader.u2
  let superClass ← Reader.lift (pool.className? superIndex)
  let interfaces ← Reader.counted (Attributes.readClassName pool)
  let fields ← Reader.counted (Member.read pool)
  let methods ← Reader.counted (Member.read pool)
  let attributes ← Attributes.read .type pool
  Reader.finish
  return {
    minorVersion, majorVersion
    access := UInt16.ofNat access
    thisClass, superClass, interfaces, fields, methods
    signature := attributes.signature
    innerClasses := attributes.innerClasses
    pool }

namespace ClassDescription

variable {c : ClassDescription}

theorem Encodable.body_writes (h : c.Encodable) :
    Writes (Writer.body c) fun pool bytes =>
      (ClassFile.readBehind 0 52 pool).ReadsAll bytes (c.decoded pool) := by
  have hstrings := h.strings
  simp only [ClassDescription.strings, List.forall_mem_cons, List.forall_mem_append,
    List.forall_mem_flatMap, Option.mem_toList] at hstrings
  obtain ⟨hthis, ⟨⟨⟨⟨hsuper, hinterfaces⟩, hsignature⟩, hfields, hmethods⟩, hsymbols⟩, hinner⟩ :=
    hstrings
  obtain ⟨hthrown, hthrown'⟩ := List.forall_mem_append.1 h.thrown
  apply (classRef_writes hthis).bind
  intro thisClass
  apply (optional_classRef_writes hsuper).bind
  intro superClass
  apply (Writes.mapM c.interfaces fun name hname => classRef_writes (hinterfaces name hname)).bind
  intro interfaces
  apply (Writes.mapM c.symbols fun s hs => symbol_writes (hsymbols s hs)).bind
  intro _
  apply (memberTable_writes hfields hthrown h.fields).bind
  intro fields
  apply (memberTable_writes hmethods hthrown' h.methods).bind
  intro methods
  apply (signatureAttribute_writes hsignature).bind
  intro signature
  apply (innerClassesAttribute_writes hinner h.innerClasses).bind
  intro innerClasses
  apply Writes.pure
  -- What each step has yielded is known in the final pool, the last step first.
  rintro pool ⟨hcount, hinner⟩ ⟨hcount', hsignature⟩ hmethods hfields _ hinterfaces
    ⟨hsuperIndex, hsuper⟩ hthis
  have hattributes : Collect .type pool (signature ++ innerClasses) {}
      { signature := c.signature, innerClasses := c.innerClasses } :=
    (hsignature .type {} rfl).append (hinner _)
  have hfits : (signature ++ innerClasses).length < 65536 := by
    rw [List.length_append]
    omega
  have hnames := classNames_reads h.interfaces hinterfaces
  simp only [List.append_assoc]
  apply (u2_reads_flags c.access).bindAll
  apply (readClassName_reads hthis).bindAll
  apply (u2_reads hsuperIndex).bindAll
  apply ReadsAll.lift_bind hsuper
  rw [← List.append_assoc]
  apply hnames.bindAll
  apply hfields.bindAll
  apply hmethods.bindAll
  rw [← List.append_nil (attributeTable _)]
  apply (hattributes.read_reads hfits).bindAll
  apply ReadsAll.finish
  rw [UInt16.ofNat_toNat]
  exact (Reads.pure (c.decoded pool)).all

theorem readMagic_reads : ClassFile.readMagic.Reads (u4 ClassFile.magic) () :=
  (u4_reads (n := ClassFile.magic) (by decide)).bind_nil (Reads.pure ())

/-- The pool that is read is the one that was written with the rest of the artifact. -/
theorem Encodable.read_encode (h : c.Encodable) :
    ∃ pool, ((Writer.body c).run {}).2.DecodesTo pool ∧
      ClassFile.read.ReadsAll c.encode (c.decoded pool) := by
  have hempty : Pool.Sound {} := nofun
  obtain ⟨pool, hpool⟩ := (h.body_writes.sound {} hempty).exists_decodesTo h.pool
  have hbody := h.body_writes.holds {} _ pool List.prefix_rfl hpool
  refine ⟨pool, hpool, ?_⟩
  show ClassFile.read.ReadsAll (u4 ClassFile.magic ++ u2 0 ++ u2 52 ++
    poolBytes ((Writer.body c).run {}).2 ++ ((Writer.body c).run {}).1) (c.decoded pool)
  simp only [List.append_assoc]
  apply readMagic_reads.bindAll
  apply (u2_reads (n := 0) (by decide)).bindAll
  apply (u2_reads (n := 52) (by decide)).bindAll
  exact (ConstantPool.read_reads hpool).bindAll hbody

/-- Decoding undoes encoding. -/
theorem decode_encode (h : c.Encodable) :
    ∃ pool, ClassFile.decode c.encode = .ok (c.decoded pool) := by
  obtain ⟨pool, _, hreads⟩ := h.read_encode
  refine ⟨pool, ?_⟩
  unfold ClassFile.decode Reader.run
  rw [hreads 0]
  rfl

/-- A class without a super class, with a nested class that has no name. -/
def mixed : ClassDescription where
  thisClass := "p/Mixed"
  superClass := none
  interfaces := ["p/Shape"]
  signature := some "<T:Ljava/lang/Object;>Ljava/lang/Object;Lp/Shape;"
  fields := [{
    access := 0x02, name := "items", descriptor := "Ljava/util/List;"
    signature := some "Ljava/util/List<TT;>;", thrown := [] }]
  methods := [{
    access := 0x01, name := "draw", descriptor := "()V", signature := none
    thrown := ["p/Failure", "java/io/IOException"] }]
  symbols := [.method "p/Shape" "draw" "()V", .methodType "(Lp/Shape;)V"]
  innerClasses := [
    { inner := "p/Mixed$Part", outer := some "p/Mixed", name := some "Part", access := 0x09 },
    { inner := "p/Mixed$1", outer := none, name := none, access := 0x00 }]

theorem mixed_encodable : mixed.Encodable :=
  ⟨by decide, by decide, by decide, by decide, by decide, by decide, by decide⟩

theorem decode_encode_mixed : mixed.Encodable ∧
    ∃ pool, ClassFile.decode mixed.encode = .ok (mixed.decoded pool) :=
  ⟨mixed_encodable, decode_encode mixed_encodable⟩

end ClassDescription

end Rebuild.Artifact
