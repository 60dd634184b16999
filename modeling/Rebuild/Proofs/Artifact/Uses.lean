import Mathlib
import Rebuild.Proofs.Artifact.RoundTrip
import Rebuild.Proofs.Artifact.Symbols

/-! The symbols of an artifact from its description. Every entry of a written pool that can be read
as a symbol was written for a use of it, and each use has such an entry, however entries are shared.
Main statement: the symbols read off an encoded artifact are those that its description uses. -/
namespace Rebuild.Artifact

open Writer

/-- What the decoded pool holds was written. -/
theorem Writer.Pool.DecodesTo.of_get {p : Pool} {pool : ConstantPool} (h : p.DecodesTo pool)
    {index : Nat} {constant : Constant} (hget : pool.get index = .ok constant) :
    ∃ e ∈ p.entries, e.Denotes constant := by
  obtain ⟨constants, hentries, hall⟩ := h.entries
  obtain ⟨hplace, husable⟩ := ConstantPool.get_eq_ok.mp hget
  rw [hentries] at hplace
  cases index with
  | zero => exact absurd (Option.some.inj hplace).symm husable
  | succ position =>
    rw [List.getElem?_cons_succ] at hplace
    obtain ⟨hposition, rfl⟩ := List.getElem?_eq_some_iff.mp hplace
    have hposition' : position < p.entries.length := hall.length_eq ▸ hposition
    exact ⟨_, List.getElem_mem hposition', hall.get hposition' hposition⟩

/-! ## Writing symbols -/

namespace Writer

variable {α β : Type} {given : ConstantPool → Prop} {write : WriteM α} {next : α → WriteM β}
  {right : ConstantPool → α → Prop} {uses uses' : List Symbol}

/-- The pool that is decoded in the end holds the entries written so far. -/
def Pool.EndsIn (p : Pool) (pool : ConstantPool) : Prop :=
  ∃ last : Pool, p.entries <+: last.entries ∧ last.DecodesTo pool

theorem Pool.EndsIn.of_prefix {p q : Pool} {pool : ConstantPool} (h : q.EndsIn pool)
    (hbefore : p.entries <+: q.entries) : p.EndsIn pool := by
  obtain ⟨last, hlast, hdecodes⟩ := h
  exact ⟨last, hbefore.trans hlast, hdecodes⟩

theorem Writes.endsIn (h : Writes write right) {p : Pool} {pool : ConstantPool}
    (hpool : (write.run p).2.EndsIn pool) : right pool (write.run p).1 := by
  obtain ⟨last, hlast, hdecodes⟩ := hpool
  exact h.holds p last pool hlast hdecodes

/-- Writing adds the entries of some symbols, apart from parts of them, and those of no other ones.
What it relies on is given of the pool that is decoded in the end. -/
structure Accounts (given : ConstantPool → Prop) (write : WriteM α) (uses : List Symbol) :
    Prop where
  grows : ∀ p, p.entries <+: (write.run p).2.entries
  shown : ∀ p pool, (write.run p).2.EndsIn pool → given pool → ∀ s ∈ uses,
    ∃ index constant, pool.Has index constant ∧ pool.Shows constant s
  only : ∀ p pool, (write.run p).2.EndsIn pool → given pool → ∀ e ∈ (write.run p).2.entries,
    e ∈ p.entries ∨ ∃ constant, e.Denotes constant ∧ pool.Explains uses constant

namespace Accounts

theorem pure (a : α) : Accounts given (pure a) [] where
  grows _ := List.prefix_rfl
  shown _ _ _ _ _ hs := by cases hs
  only _ _ _ _ e he := .inl he

theorem congr (h : Accounts given write uses) (hiff : ∀ s, s ∈ uses' ↔ s ∈ uses) :
    Accounts given write uses' where
  grows := h.grows
  shown p pool hpool hgiven s hs := h.shown p pool hpool hgiven s ((hiff s).mp hs)
  only p pool hpool hgiven e he := by
    rcases h.only p pool hpool hgiven e he with hold | ⟨constant, hdenotes, hexplains⟩
    · exact .inl hold
    · exact .inr ⟨constant, hdenotes, hexplains.mono fun s hs => (hiff s).mpr hs⟩

theorem given_mono {stronger : ConstantPool → Prop} (h : Accounts given write uses)
    (hle : ∀ pool, stronger pool → given pool) : Accounts stronger write uses where
  grows := h.grows
  shown p pool hpool hgiven := h.shown p pool hpool (hle pool hgiven)
  only p pool hpool hgiven := h.only p pool hpool (hle pool hgiven)

theorem bind_given (right : ConstantPool → α → Prop)
    (hright : ∀ p pool, (write.run p).2.EndsIn pool → right pool (write.run p).1)
    (h : Accounts given write uses)
    (hnext : ∀ a, Accounts (fun pool => given pool ∧ right pool a) (next a) uses') :
    Accounts given (write >>= next) (uses ++ uses') where
  grows p := (h.grows p).trans ((hnext _).grows _)
  shown p pool hpool hgiven s hs := by
    have hfirst := hpool.of_prefix ((hnext (write.run p).1).grows (write.run p).2)
    rcases List.mem_append.mp hs with hs | hs
    · exact h.shown p pool hfirst hgiven s hs
    · exact (hnext _).shown _ pool hpool ⟨hgiven, hright p pool hfirst⟩ s hs
  only p pool hpool hgiven e he := by
    have hfirst := hpool.of_prefix ((hnext (write.run p).1).grows (write.run p).2)
    rcases (hnext _).only _ pool hpool ⟨hgiven, hright p pool hfirst⟩ e he with
      hold | ⟨constant, hdenotes, hnew⟩
    · rcases h.only p pool hfirst hgiven e hold with hold | ⟨constant, hdenotes, hnew⟩
      · exact .inl hold
      · exact .inr ⟨constant, hdenotes, hnew.mono (List.subset_append_left ..)⟩
    · exact .inr ⟨constant, hdenotes, hnew.mono (List.subset_append_right ..)⟩

/-- Later steps may rely on what earlier steps have yielded. -/
theorem bind (hwrites : Writes write right) (h : Accounts given write uses)
    (hnext : ∀ a, Accounts (fun pool => given pool ∧ right pool a) (next a) uses') :
    Accounts given (write >>= next) (uses ++ uses') :=
  h.bind_given right (fun _ _ => hwrites.endsIn) hnext

theorem andThen (h : Accounts given write uses) (hnext : ∀ a, Accounts given (next a) uses') :
    Accounts given (write >>= next) (uses ++ uses') :=
  h.bind_given (fun _ _ => True) (fun _ _ _ => trivial) fun a =>
    (hnext a).given_mono fun _ => And.left

theorem mapM {ι : Type} {write : ι → WriteM α} {uses : ι → List Symbol} (items : List ι)
    (h : ∀ i ∈ items, Accounts given (write i) (uses i)) :
    Accounts given (items.mapM write) (items.flatMap uses) := by
  induction items with
  | nil => exact Accounts.pure []
  | cons i items ih =>
    rw [List.mapM_cons, List.flatMap_cons, ← List.append_nil (items.flatMap uses)]
    apply (h i List.mem_cons_self).andThen
    intro a
    apply (ih fun j hj => h j (List.mem_cons_of_mem i hj)).andThen
    intro as
    exact Accounts.pure (a :: as)

end Accounts

theorem intern_accounts {entry : PoolEntry} {constant : Constant}
    (hdenotes : entry.Denotes constant)
    (huses : ∀ pool, given pool → pool.Explains uses constant ∧ ∀ s ∈ uses, pool.Shows constant s) :
    Accounts given (intern entry) uses where
  grows := (intern_writes hdenotes).grows
  shown p pool hpool hgiven s hs :=
    ⟨_, constant, (intern_writes hdenotes).endsIn hpool, (huses pool hgiven).2 s hs⟩
  only p pool hpool hgiven e he := by
    obtain ⟨position, q, hrun, _, _, hmem⟩ := exists_run_intern entry p
    rw [hrun] at he
    rcases hmem e he with hold | rfl
    · exact .inl hold
    · exact .inr ⟨constant, hdenotes, (huses pool hgiven).1⟩

/-- An entry from which no symbol is read. -/
theorem intern_part {entry : PoolEntry} {constant : Constant} (hdenotes : entry.Denotes constant)
    (hpart : ∀ pool index, Reference.ofEntry pool index constant = .ok []) :
    Accounts given (intern entry) [] :=
  intern_accounts hdenotes fun pool _ => ⟨.part (hpart pool), by simp⟩

theorem intern_symbol {entry : PoolEntry} {constant : Constant} {s : Symbol}
    (hdenotes : entry.Denotes constant) (hshows : ∀ pool, given pool → pool.Shows constant s) :
    Accounts given (intern entry) [s] :=
  intern_accounts hdenotes fun pool hgiven =>
    ⟨.symbol (List.mem_singleton_self s) (hshows pool hgiven), by simpa using hshows pool hgiven⟩

theorem utf8_accounts {text : String} (h : Storable text) : Accounts given (utf8 text) [] :=
  intern_part (.utf8 h) fun _ _ => rfl

theorem classRef_accounts {name : String} (h : Storable name) :
    Accounts given (classRef name) [.type name] := by
  apply Accounts.bind (utf8_writes h) (utf8_accounts h)
  intro text
  apply intern_symbol (.classRef text)
  rintro pool ⟨-, hname⟩
  rw [Nat.mod_eq_of_lt hname.short]
  exact .type hname

/-- A member reference comes with the class entry of its owner. -/
theorem memberRef_accounts {tag : UInt8} {make : Nat → Nat → Constant} {s : Symbol}
    {owner name descriptor : String}
    (hdenotes : ∀ classIndex memberIndex, PoolEntry.Denotes ⟨tag, u2 classIndex ++ u2 memberIndex⟩
      (make (classIndex % 65536) (memberIndex % 65536)))
    (hshows : ∀ (pool : ConstantPool) classIndex memberIndex, pool.HasClass classIndex owner →
      pool.HasMember memberIndex name descriptor → pool.Shows (make classIndex memberIndex) s)
    (howner : Storable owner) (hname : Storable name) (hdescriptor : Storable descriptor) :
    Accounts given (memberRef tag owner name descriptor) [.type owner, s] := by
  apply Accounts.bind (classRef_writes howner) (classRef_accounts howner)
  intro classIndex
  apply Accounts.bind (utf8_writes hname) (utf8_accounts hname)
  intro nameIndex
  apply Accounts.bind (utf8_writes hdescriptor) (utf8_accounts hdescriptor)
  intro descriptorIndex
  have hpair := PoolEntry.Denotes.nameAndType nameIndex descriptorIndex
  apply Accounts.bind (intern_writes hpair) (intern_part hpair fun _ _ => rfl)
  intro memberIndex
  apply intern_symbol (hdenotes classIndex memberIndex)
  rintro pool ⟨⟨⟨⟨-, hclass⟩, hnameText⟩, hdescriptorText⟩, hmember⟩
  rw [Nat.mod_eq_of_lt hnameText.short, Nat.mod_eq_of_lt hdescriptorText.short] at hmember
  rw [Nat.mod_eq_of_lt hclass.short, Nat.mod_eq_of_lt hmember.short]
  exact hshows pool classIndex memberIndex hclass ⟨_, _, hmember, hnameText, hdescriptorText⟩

theorem symbol_accounts {s : Symbol} (h : ∀ text ∈ s.strings, Storable text) :
    Accounts given (symbol s) (s.classNames.map .type ++ [s]) := by
  cases s with
  | type name =>
    apply (classRef_accounts (h name List.mem_cons_self)).congr
    simp [Symbol.classNames]
  | field owner name descriptor =>
    simp only [Symbol.strings, List.forall_mem_cons] at h
    exact memberRef_accounts .fieldRef (fun _ _ _ => .field) h.1 h.2.1 h.2.2.1
  | method owner name descriptor =>
    simp only [Symbol.strings, List.forall_mem_cons] at h
    exact memberRef_accounts .methodRef (fun _ _ _ => .method) h.1 h.2.1 h.2.2.1
  | interfaceMethod owner name descriptor =>
    simp only [Symbol.strings, List.forall_mem_cons] at h
    exact memberRef_accounts .interfaceMethodRef (fun _ _ _ => .interfaceMethod) h.1 h.2.1 h.2.2.1
  | methodType descriptor =>
    have hdescriptor : Storable descriptor := h descriptor List.mem_cons_self
    apply Accounts.bind (utf8_writes hdescriptor) (utf8_accounts hdescriptor)
    intro text
    apply intern_symbol (.methodType text)
    rintro pool ⟨-, htext⟩
    rw [Nat.mod_eq_of_lt htext.short]
    exact .methodType htext

/-! ## Writing artifacts -/

theorem optional_utf8_accounts {text? : Option String} (h : ∀ text ∈ text?, Storable text) :
    Accounts given (optional utf8 text?) [] := by
  cases text? with
  | none => exact Accounts.pure 0
  | some text => exact utf8_accounts (h text rfl)

theorem optional_classRef_accounts {name? : Option String} (h : ∀ name ∈ name?, Storable name) :
    Accounts given (optional classRef name?) (name?.toList.map .type) := by
  cases name? with
  | none => exact Accounts.pure 0
  | some name => exact classRef_accounts (h name rfl)

theorem classRefs_accounts {names : List String} (h : ∀ name ∈ names, Storable name) :
    Accounts given (names.mapM classRef) (names.map .type) := by
  rw [List.map_eq_flatMap]
  exact Accounts.mapM names fun name hname => classRef_accounts (h name hname)

theorem signatureAttribute_accounts {text? : Option String} (h : ∀ text ∈ text?, Storable text) :
    Accounts given (signatureAttribute text?) [] := by
  cases text? with
  | none => exact Accounts.pure []
  | some text =>
    apply (utf8_accounts (show Storable "Signature" by decide)).andThen
    intro name
    apply (utf8_accounts (h text rfl)).andThen
    intro index
    exact Accounts.pure _

theorem thrownAttribute_accounts {thrown : List String} (h : ∀ name ∈ thrown, Storable name) :
    Accounts given (thrownAttribute thrown) (thrown.map .type) := by
  unfold thrownAttribute
  split
  · next hnone =>
    rw [hnone]
    exact Accounts.pure []
  · rw [← List.append_nil (thrown.map Symbol.type)]
    apply (classRefs_accounts h).andThen
    intro classes
    apply (utf8_accounts (show Storable "Exceptions" by decide)).andThen
    intro name
    exact Accounts.pure _

end Writer

/-- The names of an entry for which class entries are written. -/
def InnerClass.classNames (entry : InnerClass) : List String := entry.inner :: entry.outer.toList

namespace Writer

variable {given : ConstantPool → Prop}

theorem innerClass_accounts {entry : InnerClass} (h : ∀ text ∈ entry.strings, Storable text) :
    Accounts given (innerClass entry) (entry.classNames.map .type) := by
  simp only [InnerClass.strings, List.forall_mem_cons, List.forall_mem_append,
    Option.mem_toList] at h
  obtain ⟨hinner, houter, hname⟩ := h
  rw [InnerClass.classNames, ← List.append_nil (List.map _ _), List.map_cons]
  apply (classRef_accounts hinner).andThen
  intro inner
  apply (optional_classRef_accounts houter).andThen
  intro outer
  apply (optional_utf8_accounts hname).andThen
  intro name
  exact Accounts.pure _

theorem innerClassesAttribute_accounts {entries : List InnerClass}
    (h : ∀ entry ∈ entries, ∀ text ∈ entry.strings, Storable text) :
    Accounts given (innerClassesAttribute entries)
      (entries.flatMap fun entry => entry.classNames.map .type) := by
  unfold innerClassesAttribute
  split
  · next hnone =>
    rw [hnone]
    exact Accounts.pure []
  · rw [← List.append_nil (entries.flatMap _)]
    apply (Accounts.mapM entries fun entry hentry => innerClass_accounts (h entry hentry)).andThen
    intro bodies
    apply (utf8_accounts (show Storable "InnerClasses" by decide)).andThen
    intro name
    exact Accounts.pure _

theorem member_accounts {m : Member} (h : ∀ text ∈ m.strings, Storable text) :
    Accounts given (member m) (m.thrown.map .type) := by
  simp only [Member.strings, List.forall_mem_cons, List.forall_mem_append, Option.mem_toList] at h
  obtain ⟨hname, hdescriptor, hsignature, hthrown⟩ := h
  rw [← List.append_nil (m.thrown.map Symbol.type)]
  apply (utf8_accounts hname).andThen
  intro name
  apply (utf8_accounts hdescriptor).andThen
  intro descriptor
  apply (signatureAttribute_accounts hsignature).andThen
  intro signature
  apply (thrownAttribute_accounts hthrown).andThen
  intro thrown
  exact Accounts.pure _

theorem memberTable_accounts {members : List Member}
    (h : ∀ m ∈ members, ∀ text ∈ m.strings, Storable text) :
    Accounts given (memberTable members) (members.flatMap fun m => m.thrown.map .type) := by
  rw [← List.append_nil (members.flatMap _)]
  apply (Accounts.mapM members fun m hm => member_accounts (h m hm)).andThen
  intro bodies
  exact Accounts.pure _

end Writer

/-! ## Artifacts -/

theorem ClassFile.decode_eq_ok {bytes : List UInt8} {c : ClassFile}
    (h : ClassFile.read.ReadsAll bytes c) : ClassFile.decode bytes = .ok c := by
  unfold ClassFile.decode Reader.run
  rw [h 0]
  rfl

namespace ClassDescription

variable {c : ClassDescription}

/-- The class names that a description uses. -/
def classNames (c : ClassDescription) : List String :=
  c.thisClass :: (c.superClass.toList ++ c.interfaces ++ c.symbols.flatMap Symbol.classNames
    ++ (c.fields ++ c.methods).flatMap Member.thrown ++ c.innerClasses.flatMap InnerClass.classNames)

/-- What entries are written for, apart from their parts. -/
def uses (c : ClassDescription) : List Symbol := c.classNames.map .type ++ c.symbols

theorem Encodable.body_accounts {given : ConstantPool → Prop} (h : c.Encodable) :
    Accounts given (Writer.body c) c.uses := by
  have hstrings := h.strings
  simp only [ClassDescription.strings, List.forall_mem_cons, List.forall_mem_append,
    List.forall_mem_flatMap, Option.mem_toList] at hstrings
  obtain ⟨hthis, ⟨⟨⟨⟨hsuper, hinterfaces⟩, hsignature⟩, hfields, hmethods⟩, hsymbols⟩, hinner⟩ :=
    hstrings
  have hbody : Accounts given (Writer.body c) ([.type c.thisClass] ++ (c.superClass.toList.map .type ++
      (c.interfaces.map .type ++ (c.symbols.flatMap (fun s => s.classNames.map .type ++ [s]) ++
        ((c.fields.flatMap fun m => m.thrown.map .type) ++
          ((c.methods.flatMap fun m => m.thrown.map .type) ++ ([] ++
            ((c.innerClasses.flatMap fun entry => entry.classNames.map .type) ++ [])))))))) := by
    apply (classRef_accounts hthis).andThen
    intro thisClass
    apply (optional_classRef_accounts hsuper).andThen
    intro superClass
    apply (classRefs_accounts hinterfaces).andThen
    intro interfaces
    apply (Accounts.mapM c.symbols fun s hs => symbol_accounts (hsymbols s hs)).andThen
    intro _
    apply (memberTable_accounts hfields).andThen
    intro fields
    apply (memberTable_accounts hmethods).andThen
    intro methods
    apply (signatureAttribute_accounts hsignature).andThen
    intro signature
    apply (innerClassesAttribute_accounts hinner).andThen
    intro innerClasses
    exact Accounts.pure _
  apply hbody.congr
  intro s
  have hsymbol : s ∈ c.symbols.flatMap (fun s => s.classNames.map .type ++ [s]) ↔
      s ∈ (c.symbols.flatMap Symbol.classNames).map .type ∨ s ∈ c.symbols := by
    simp only [List.mem_flatMap, List.mem_map, List.mem_append, List.mem_singleton]
    grind
  simp only [uses, classNames, List.map_cons, List.map_append, List.map_flatMap, List.flatMap_append,
    List.mem_append, List.mem_cons, hsymbol, List.not_mem_nil]
  tauto

/-- What a description refers to. Class names count as the types that they stand for, and members of
what stands for no type do not count. -/
inductive Refers (c : ClassDescription) : Reference → Prop
  | type {name type : String} (hname : name ∈ c.classNames) (htype : StandsFor name type) :
      Refers c (.type type)
  | field {owner name descriptor type : String} (hsymbol : .field owner name descriptor ∈ c.symbols)
      (htype : StandsFor owner type) : Refers c (.field type name descriptor)
  | method {owner name descriptor type : String} (hsymbol : .method owner name descriptor ∈ c.symbols ∨
      .interfaceMethod owner name descriptor ∈ c.symbols) (hname : name ≠ "<init>")
      (htype : StandsFor owner type) : Refers c (.method type name descriptor)
  | constructor {owner descriptor type : String}
      (hsymbol : .method owner "<init>" descriptor ∈ c.symbols ∨
        .interfaceMethod owner "<init>" descriptor ∈ c.symbols)
      (htype : StandsFor owner type) : Refers c (.constructor type descriptor)
  | mentioned {text type : String} {d : MethodDescriptor} {t : FieldType}
      (hsymbol : .methodType text ∈ c.symbols) (hdescribable : d.Describable)
      (htext : text.toList = d.descriptor) (ht : t ∈ d.types)
      (htype : t.objectName? = some type) : Refers c (.type type)

theorem type_mem_uses {name : String} : .type name ∈ c.uses ↔ name ∈ c.classNames := by
  have hsymbol (h : .type name ∈ c.symbols) : name ∈ c.classNames := by
    have hnames : name ∈ c.symbols.flatMap Symbol.classNames :=
      List.mem_flatMap.mpr ⟨_, h, List.mem_singleton_self name⟩
    simp [classNames, hnames]
  simpa [uses] using hsymbol

/-- A symbol of its own is in use if it is listed. -/
theorem mem_uses_iff {s : Symbol} (h : ∀ name, s ≠ .type name) : s ∈ c.uses ↔ s ∈ c.symbols := by
  have hname : s ∉ c.classNames.map .type := fun hs => by
    obtain ⟨name, -, hname⟩ := List.mem_map.mp hs
    exact h name hname.symm
  simp [uses, hname]

theorem refers_of_mem_method {owner name descriptor : String} {r : Reference}
    (hsymbol : .method owner name descriptor ∈ c.symbols ∨
      .interfaceMethod owner name descriptor ∈ c.symbols)
    (hr : r ∈ (Reference.classEntryType? owner).toList.map (.ofMethod · name descriptor)) :
    c.Refers r := by
  obtain ⟨type, htype, rfl⟩ := List.mem_map.mp hr
  have htype := Reference.classEntryType?_eq_some_iff.mp (Option.mem_toList.mp htype)
  unfold Reference.ofMethod
  split
  next hname =>
    subst hname
    exact .constructor hsymbol htype
  next hname => exact .method hsymbol hname htype

theorem refers_of_mem {s : Symbol} {r : Reference} (hs : s ∈ c.uses) (hr : r ∈ s.references) :
    c.Refers r := by
  cases s with
  | type name =>
    obtain ⟨type, htype, rfl⟩ := List.mem_map.mp hr
    exact .type (type_mem_uses.mp hs)
      (Reference.classEntryType?_eq_some_iff.mp (Option.mem_toList.mp htype))
  | field owner name descriptor =>
    obtain ⟨type, htype, rfl⟩ := List.mem_map.mp hr
    exact .field ((mem_uses_iff (by simp)).mp hs)
      (Reference.classEntryType?_eq_some_iff.mp (Option.mem_toList.mp htype))
  | method owner name descriptor =>
    exact refers_of_mem_method (.inl ((mem_uses_iff (by simp)).mp hs)) hr
  | interfaceMethod owner name descriptor =>
    exact refers_of_mem_method (.inr ((mem_uses_iff (by simp)).mp hs)) hr
  | methodType text =>
    rw [Symbol.references, Reference.ofMethodType] at hr
    cases hparse : MethodDescriptor.parse text with
    | error e =>
      rw [hparse] at hr
      cases hr
    | ok d =>
      rw [hparse] at hr
      obtain ⟨t, ht, hr⟩ := List.mem_filterMap.mp hr
      obtain ⟨type, htype, rfl⟩ := Option.map_eq_some_iff.mp hr
      obtain ⟨hdescribable, htext⟩ := (MethodDescriptor.parse_eq_ok_iff text d).mp hparse
      exact .mentioned ((mem_uses_iff (by simp)).mp hs) hdescribable htext ht htype

theorem Refers.exists_mem {r : Reference} (h : c.Refers r) : ∃ s ∈ c.uses, r ∈ s.references := by
  have howner {owner type : String} (htype : StandsFor owner type) (make : String → Reference) :
      make type ∈ (Reference.classEntryType? owner).toList.map make :=
    List.mem_map_of_mem (Option.mem_toList.mpr (Reference.classEntryType?_eq_some_iff.mpr htype))
  have hmethod {owner name descriptor type : String} (hsymbol : .method owner name descriptor ∈
      c.symbols ∨ .interfaceMethod owner name descriptor ∈ c.symbols)
      (htype : StandsFor owner type) :
      ∃ s ∈ c.uses, Reference.ofMethod type name descriptor ∈ s.references := by
    rcases hsymbol with hs | hs
    · exact ⟨_, (mem_uses_iff (by simp)).mpr hs, howner htype (.ofMethod · name descriptor)⟩
    · exact ⟨_, (mem_uses_iff (by simp)).mpr hs, howner htype (.ofMethod · name descriptor)⟩
  cases h with
  | type hname htype => exact ⟨_, type_mem_uses.mpr hname, howner htype .type⟩
  | @field owner name descriptor type hsymbol htype =>
    exact ⟨_, (mem_uses_iff (by simp)).mpr hsymbol, howner htype (.field · name descriptor)⟩
  | @method owner name descriptor type hsymbol hname htype =>
    obtain ⟨s, hs, hr⟩ := hmethod hsymbol htype
    rw [Reference.ofMethod, if_neg hname] at hr
    exact ⟨s, hs, hr⟩
  | constructor hsymbol htype => exact hmethod hsymbol htype
  | @mentioned text type d t hsymbol hdescribable htext ht htype =>
    refine ⟨_, (mem_uses_iff (by simp)).mpr hsymbol, ?_⟩
    have hparse := (MethodDescriptor.parse_eq_ok_iff text d).mpr ⟨hdescribable, htext⟩
    rw [Symbol.references, Reference.ofMethodType, hparse]
    exact List.mem_filterMap.mpr ⟨t, ht, by rw [htype]; rfl⟩

/-- The symbols that are read off an encoded artifact are those that its description refers to. -/
theorem references_decode_encode (h : c.Encodable) : ∃ pool references,
    ClassFile.decode c.encode = .ok (c.decoded pool) ∧
      (c.decoded pool).references = .ok references ∧ ∀ r, r ∈ references ↔ c.Refers r := by
  obtain ⟨pool, hpool, hreads⟩ := h.read_encode
  have hends : ((Writer.body c).run {}).2.EndsIn pool := ⟨_, List.prefix_rfl, hpool⟩
  have hbody : Accounts (fun _ => True) (Writer.body c) c.uses := h.body_accounts
  have hexplains {index : Nat} {constant : Constant} (hget : pool.get index = .ok constant) :
      pool.Explains c.uses constant := by
    obtain ⟨e, he, hdenotes⟩ := hpool.of_get hget
    rcases hbody.only {} pool hends trivial e he with hold | ⟨constant', hdenotes', hexplains⟩
    · cases hold
    · rwa [hdenotes.unique hdenotes']
  obtain ⟨references, hreferences, hmem⟩ :=
    ConstantPool.exists_references hexplains (hbody.shown {} pool hends trivial)
  refine ⟨pool, references, ClassFile.decode_eq_ok hreads, hreferences, fun r => ?_⟩
  rw [hmem]
  exact ⟨fun ⟨s, hs, hr⟩ => refers_of_mem hs hr, Refers.exists_mem⟩

/-- Arrays as owners and as types, some of which stand for no type, a constructor that is used twice,
and a method type that lacks its end. -/
def arrayed : ClassDescription where
  thisClass := "p/A"
  interfaces := ["p/I"]
  methods := [{
    access := 0x01, name := "m", descriptor := "()V", signature := none, thrown := ["p/Failure"] }]
  symbols := [
    .method "[[Lp/B;" "clone" "()Ljava/lang/Object;", .method "[I" "clone" "()Ljava/lang/Object;",
    .interfaceMethod "p/C" "<init>" "(I)V", .method "p/C" "<init>" "(I)V", .type "[Q",
    .field "p/D" "d" "Lp/C;", .methodType "(I[Lp/E;)V", .methodType "(Lp/E;"]
  innerClasses := [{ inner := "p/A$1", outer := some "[Lp/A;", name := none, access := 0x00 }]

theorem arrayed_encodable : arrayed.Encodable :=
  ⟨by decide, by decide, by decide, by decide, by decide, by decide, by decide +kernel⟩

theorem references_decode_encode_arrayed : arrayed.Encodable ∧ ∃ pool references,
    ClassFile.decode arrayed.encode = .ok (arrayed.decoded pool) ∧
      (arrayed.decoded pool).references = .ok references ∧
      .method "p/B" "clone" "()Ljava/lang/Object;" ∈ references ∧
      .constructor "p/C" "(I)V" ∈ references ∧ .type "p/E" ∈ references := by
  obtain ⟨pool, references, hdecode, hreferences, hmem⟩ := references_decode_encode arrayed_encodable
  refine ⟨arrayed_encodable, pool, references, hdecode, hreferences, ?_, ?_, ?_⟩
  · have htype : StandsFor "[[Lp/B;" "p/B" :=
      .element Nat.two_pos (by decide) ⟨by decide, by simp⟩ rfl
    exact (hmem _).mpr (.method (.inl (by decide)) (by decide) htype)
  · exact (hmem _).mpr (.constructor (.inr (by decide)) (.name (by decide)))
  · let d : MethodDescriptor := ⟨[.base .int, .array (.object "p/E")], none⟩
    have hdescribable : d.Describable := by
      intro t ht
      rcases List.mem_pair.mp ht with rfl | rfl
      · exact ⟨by decide, nofun⟩
      · refine ⟨by decide, ?_⟩
        rintro _ ⟨rfl⟩
        exact ⟨by decide, by simp⟩
    have hsymbol : .methodType "(I[Lp/E;)V" ∈ arrayed.symbols := by decide
    have htext : "(I[Lp/E;)V".toList = d.descriptor := by decide
    have ht : .array (.object "p/E") ∈ d.types := by decide
    exact (hmem _).mpr (.mentioned hsymbol hdescribable htext ht rfl)

end ClassDescription

end Rebuild.Artifact
