import Mathlib
import Rebuild.Artifact.Writer
import Rebuild.Proofs.Dependency.Update

/-! What shapes tell apart. The lines of a shape are texts put together with marks between them, and
can be taken apart again where the marks are no part of the texts. Main statements: then equal
shapes have the same types, with the same access flags in the heads of their artifacts; and, if no
two members run together to one text, shapes are equal if and only if the same heads and members are
seen, which is what an update compares with the last one. -/
namespace Rebuild.Dependency

open Artifact (ClassFile ClassDescription Member)

/-! ## Texts put together -/

/-- A text in which some characters do not occur. -/
def Lacks (marks : List Char) (text : String) : Prop := ∀ c ∈ marks, c ∉ text.toList

instance (marks : List Char) (text : String) : Decidable (Lacks marks text) :=
  List.decidableBAll (fun c => c ∉ text.toList) marks

/-- A text that lacks some marks is read back in front of one of them. -/
theorem cut_unique {marks : List Char} {a b : String} (ha : Lacks marks a) (hb : Lacks marks b)
    {m m' : Char} (hm : m ∈ marks) (hm' : m' ∈ marks) {s t : List Char}
    (h : a.toList ++ m :: s = b.toList ++ m' :: t) : a = b ∧ m = m' ∧ s = t := by
  have htake {x : String} (hx : Lacks marks x) {mark : Char} (hmark : mark ∈ marks)
      (y : List Char) : (x.toList ++ mark :: y).takeWhile (· ∉ marks) = x.toList := by
    have hall : ∀ c ∈ x.toList, decide (c ∉ marks) = true := by
      intro c hc
      exact decide_eq_true fun hin => hx c hin hc
    rw [List.takeWhile_append_of_pos hall, List.takeWhile_cons_of_neg (by simpa using hmark),
      List.append_nil]
  have heq : a.toList = b.toList := by
    rw [← htake ha hm s, ← htake hb hm' t, h]
  rw [heq] at h
  exact ⟨String.toList_inj.mp heq, List.cons.inj (List.append_cancel_left h)⟩

/-- Names with commas between them can be told from each other again. -/
theorem names_injective {names names' : List String}
    (hnames : ∀ name ∈ names, name ≠ "" ∧ Lacks [','] name)
    (hnames' : ∀ name ∈ names', name ≠ "" ∧ Lacks [','] name)
    (h : String.intercalate "," names = String.intercalate "," names') : names = names' := by
  have hsplit {l : List String} (hl : ∀ name ∈ l, name ≠ "" ∧ Lacks [','] name) :
      ((String.intercalate "," l).toList.splitOn ',').filter (· ≠ []) = l.map String.toList := by
    rw [String.toList_intercalate]
    cases l with
    | nil => rfl
    | cons first rest =>
      have hlacks : ∀ cs ∈ (first :: rest).map String.toList, ',' ∉ cs := by
        simp only [List.mem_map]
        rintro _ ⟨name, hname, rfl⟩
        exact (hl name hname).2 ',' (List.mem_singleton_self _)
      have hfull : ∀ cs ∈ (first :: rest).map String.toList, decide (cs ≠ []) = true := by
        simp only [List.mem_map]
        rintro _ ⟨name, hname, rfl⟩
        simpa using (hl name hname).1
      change ((([','] : List Char).intercalate _).splitOn ',').filter _ = _
      rw [List.splitOn_intercalate ',' hlacks (by simp), List.filter_eq_self.mpr hfull]
  have hmap : names.map String.toList = names'.map String.toList := by
    rw [← hsplit hnames, ← hsplit hnames', h]
  exact List.map_injective_iff.mpr (fun _ _ => String.toList_inj.mp) hmap

theorem mem_names {c : Char} {names : List String}
    (h : c ∈ (String.intercalate "," names).toList) :
    c = ',' ∨ ∃ name ∈ names, c ∈ name.toList := by
  rw [String.toList_intercalate] at h
  induction names with
  | nil => cases h
  | cons first rest ih =>
    cases rest with
    | nil => exact .inr ⟨first, by simp, by simpa using h⟩
    | cons second rest =>
      simp only [List.map_cons, List.intercalate_cons_cons, List.mem_append] at h
      rcases h with (h | h) | h
      · exact .inr ⟨first, by simp, h⟩
      · exact .inl (by simpa using h)
      · rcases ih h with h | ⟨name, hname, h⟩
        · exact .inl h
        · exact .inr ⟨name, List.mem_cons_of_mem first hname, h⟩

theorem hexDigit_injective : ∀ a < 16, ∀ b < 16,
    DecodeError.hexDigit a = DecodeError.hexDigit b → a = b := by decide

theorem hexDigits_injective {width n m : Nat} (hn : n < 16 ^ width) (hm : m < 16 ^ width)
    (h : DecodeError.hexDigits width n = DecodeError.hexDigits width m) : n = m := by
  induction width generalizing n m with
  | zero => omega
  | succ width ih =>
    rw [Nat.pow_succ] at hn hm
    obtain ⟨hfront, hlast⟩ := List.append_inj' h rfl
    have hquotient := ih (by omega) (by omega) hfront
    have hremainder := hexDigit_injective _ (Nat.mod_lt n (by omega)) _
      (Nat.mod_lt m (by omega)) (List.cons.inj hlast).1
    omega

theorem mem_hexDigits {c : Char} {width n : Nat} (h : c ∈ DecodeError.hexDigits width n) :
    ∃ d < 16, c = DecodeError.hexDigit d := by
  induction width generalizing n with
  | zero => cases h
  | succ width ih =>
    rcases List.mem_append.mp h with h | h
    · exact ih h
    · exact ⟨n % 16, Nat.mod_lt n (by omega), List.mem_singleton.mp h⟩

theorem flagsText_injective {a b : UInt16} (h : flagsText a = flagsText b) : a = b := by
  have hdigits : DecodeError.hexDigits 4 a.toNat = DecodeError.hexDigits 4 b.toNat := by
    have := congrArg String.toList h
    simpa [flagsText] using this
  exact UInt16.toNat_inj.mp (hexDigits_injective a.toNat_lt b.toNat_lt hdigits)

theorem flagsText_lacks (a : UInt16) : Lacks ['|'] (flagsText a) := by
  have hdigit : ∀ d < 16, '|' ≠ DecodeError.hexDigit d := by decide
  rintro c hc h
  obtain rfl := List.mem_singleton.mp hc
  simp only [flagsText, String.toList_append, String.toList_ofList, List.mem_append] at h
  rcases h with h | h
  · revert h
    decide
  · obtain ⟨d, hd, heq⟩ := mem_hexDigits h
    exact hdigit d hd heq

theorem getD_injective {a b : Option String} (ha : ∀ s ∈ a, s ≠ "") (hb : ∀ s ∈ b, s ≠ "")
    (h : a.getD "" = b.getD "") : a = b := by
  cases a with
  | none =>
    cases b with
    | none => rfl
    | some t => exact absurd h.symm (hb t rfl)
  | some s =>
    cases b with
    | none => exact absurd h (ha s rfl)
    | some t => exact congrArg some h

/-! ## Heads and members -/

/-- Flags without the one that only steers method calls. -/
def withoutSuper (access : UInt16) : UInt16 := access &&& ~~~Artifact.Access.isSuper

/-- What the line of a type tells. -/
structure Head where
  name : String
  access : UInt16
  superClass : Option String
  interfaces : List String
  signature : Option String
  deriving DecidableEq

def head (c : ClassFile) : Head where
  name := c.binaryName
  access := withoutSuper c.access
  superClass := c.superClass
  interfaces := c.interfaces
  signature := c.signature

/-- The members that other types can use, with the binary name of the type. -/
def ownedMembers (c : ClassFile) : List (String × Member) :=
  (visibleMembers c).map fun m => (c.binaryName, m)

namespace Head

def line (h : Head) : String :=
  String.intercalate "|" [h.name, flagsText h.access, h.superClass.getD "",
    String.intercalate "," h.interfaces, h.signature.getD ""]

/-- None of the texts contains a mark that stands behind it, and what is given is not empty. -/
@[mk_iff]
structure Legible (h : Head) : Prop where
  name : Lacks ['|', '#'] h.name
  superClass : ∀ s ∈ h.superClass, s ≠ "" ∧ Lacks ['|'] s
  interfaces : ∀ i ∈ h.interfaces, i ≠ "" ∧ Lacks ['|', ','] i
  signature : ∀ s ∈ h.signature, s ≠ ""

instance (h : Head) : Decidable h.Legible := decidable_of_iff _ (legible_iff h).symm

end Head

@[mk_iff]
structure LegibleMember (m : Member) : Prop where
  name : Lacks ['|'] m.name
  descriptor : Lacks ['|'] m.descriptor
  signature : ∀ s ∈ m.signature, s ≠ "" ∧ Lacks ['|'] s
  thrown : ∀ t ∈ m.thrown, t ≠ "" ∧ Lacks [','] t

instance (m : Member) : Decidable (LegibleMember m) :=
  decidable_of_iff _ (legibleMember_iff m).symm

/-! ## Lines -/

theorem Head.line_toList (h : Head) : h.line.toList =
    h.name.toList ++ '|' :: ((flagsText h.access).toList ++ '|' :: ((h.superClass.getD "").toList ++
      '|' :: ((String.intercalate "," h.interfaces).toList ++
        '|' :: (h.signature.getD "").toList))) := by
  simp [Head.line, String.toList_intercalate]

theorem memberLine_toList (owner : String) (m : Member) : (memberLine owner m).toList =
    owner.toList ++ '#' :: ((m.name ++ m.descriptor).toList ++ '|' ::
      ((flagsText m.access).toList ++ '|' :: ((m.signature.getD "").toList ++
        '|' :: (String.intercalate "," m.thrown).toList))) := by
  simp [memberLine, String.toList_intercalate]

theorem Lacks.mono {marks marks' : List Char} {text : String} (h : Lacks marks text)
    (hsubset : marks' ⊆ marks) : Lacks marks' text := fun c hc => h c (hsubset hc)

theorem lacks_getD {marks : List Char} {text : Option String} (h : ∀ s ∈ text, Lacks marks s) :
    Lacks marks (text.getD "") := by
  cases text with
  | none => simp [Lacks]
  | some s => exact h s rfl

namespace Head

variable {h h' : Head}

/-- A line shows its name and its flags, whatever stands behind them. -/
theorem of_line_eq (hname : Lacks ['|', '#'] h.name) (hname' : Lacks ['|', '#'] h'.name)
    (heq : h.line = h'.line) : h.name = h'.name ∧ h.access = h'.access ∧
      (h.superClass.getD "").toList ++ '|' :: ((String.intercalate "," h.interfaces).toList ++
          '|' :: (h.signature.getD "").toList) =
        (h'.superClass.getD "").toList ++ '|' :: ((String.intercalate "," h'.interfaces).toList ++
          '|' :: (h'.signature.getD "").toList) := by
  have hchars := congrArg String.toList heq
  rw [line_toList, line_toList] at hchars
  obtain ⟨hnames, -, hchars⟩ := cut_unique hname hname' (by simp) (by simp) hchars
  obtain ⟨hflags, -, hchars⟩ :=
    cut_unique (flagsText_lacks _) (flagsText_lacks _) (by simp) (by simp) hchars
  exact ⟨hnames, flagsText_injective hflags, hchars⟩

theorem Legible.interfaces_lack (hl : h.Legible) :
    Lacks ['|'] (String.intercalate "," h.interfaces) := by
  rintro c hc hmem
  obtain rfl := List.mem_singleton.mp hc
  rcases mem_names hmem with hcomma | ⟨name, hname, hmem⟩
  · cases hcomma
  · exact (hl.interfaces name hname).2 _ (by simp) hmem

theorem line_injective (hl : h.Legible) (hl' : h'.Legible) (heq : h.line = h'.line) : h = h' := by
  obtain ⟨hname, haccess, hchars⟩ := of_line_eq hl.name hl'.name heq
  obtain ⟨hsuper, -, hchars⟩ := cut_unique (lacks_getD fun s hs => (hl.superClass s hs).2)
    (lacks_getD fun s hs => (hl'.superClass s hs).2) (by simp) (by simp) hchars
  obtain ⟨hinterfaces, -, hchars⟩ :=
    cut_unique hl.interfaces_lack hl'.interfaces_lack (by simp) (by simp) hchars
  cases h
  cases h'
  simp only [mk.injEq]
  refine ⟨hname, haccess, ?_, ?_, ?_⟩
  · exact getD_injective (fun s hs => (hl.superClass s hs).1)
      (fun s hs => (hl'.superClass s hs).1) hsuper
  · exact names_injective
      (fun i hi => ⟨(hl.interfaces i hi).1, (hl.interfaces i hi).2.mono (by simp)⟩)
      (fun i hi => ⟨(hl'.interfaces i hi).1, (hl'.interfaces i hi).2.mono (by simp)⟩) hinterfaces
  · exact getD_injective hl.signature hl'.signature (String.toList_inj.mp hchars)

end Head

theorem memberLine_ne_line {owner : String} {m : Member} {h : Head}
    (howner : Lacks ['|', '#'] owner) (hname : Lacks ['|', '#'] h.name) :
    memberLine owner m ≠ h.line := by
  intro heq
  have hchars := congrArg String.toList heq
  rw [memberLine_toList, Head.line_toList] at hchars
  obtain ⟨-, hmark, -⟩ := cut_unique howner hname (by simp) (by simp) hchars
  cases hmark

/-- Members with the same line are the same, unless name and descriptor run together. -/
theorem memberLine_injective {owner owner' : String} {m m' : Member}
    (howner : Lacks ['|', '#'] owner) (howner' : Lacks ['|', '#'] owner')
    (hl : LegibleMember m) (hl' : LegibleMember m')
    (hapart : owner = owner' → m.name ++ m.descriptor = m'.name ++ m'.descriptor →
      m.name = m'.name)
    (heq : memberLine owner m = memberLine owner' m') : owner = owner' ∧ m = m' := by
  have hchars := congrArg String.toList heq
  rw [memberLine_toList, memberLine_toList] at hchars
  have hlacks {k : Member} (hk : LegibleMember k) : Lacks ['|'] (k.name ++ k.descriptor) := by
    rintro c hc hmem
    rw [String.toList_append, List.mem_append] at hmem
    rcases hmem with hmem | hmem
    · exact hk.name c hc hmem
    · exact hk.descriptor c hc hmem
  obtain ⟨howners, -, hchars⟩ := cut_unique howner howner' (by simp) (by simp) hchars
  obtain ⟨htexts, -, hchars⟩ := cut_unique (hlacks hl) (hlacks hl') (by simp) (by simp) hchars
  obtain ⟨hflags, -, hchars⟩ :=
    cut_unique (flagsText_lacks _) (flagsText_lacks _) (by simp) (by simp) hchars
  obtain ⟨hsignature, -, hchars⟩ := cut_unique (lacks_getD fun s hs => (hl.signature s hs).2)
    (lacks_getD fun s hs => (hl'.signature s hs).2) (by simp) (by simp) hchars
  refine ⟨howners, ?_⟩
  have hname : m.name = m'.name := hapart howners htexts
  have hdescriptor : m.descriptor = m'.descriptor := by
    rw [hname] at htexts
    have := congrArg String.toList htexts
    rw [String.toList_append, String.toList_append] at this
    exact String.toList_inj.mp (List.append_cancel_left this)
  cases m
  cases m'
  simp only [Member.mk.injEq]
  refine ⟨flagsText_injective hflags, hname, hdescriptor, ?_, ?_⟩
  · exact getD_injective (fun s hs => (hl.signature s hs).1) (fun s hs => (hl'.signature s hs).1)
      hsignature
  · exact names_injective hl.thrown hl'.thrown (String.toList_inj.mp hchars)

/-! ## Shapes -/

section Shapes

variable {old new : List ClassFile}

theorem mem_shape {classes : List ClassFile} {line : String} :
    line ∈ shape classes ↔ (∃ h ∈ classes.map head, h.line = line) ∨
      ∃ m ∈ classes.flatMap ownedMembers, memberLine m.1 m.2 = line := by
  rw [shape, Ascending.mem_ofList]
  simp only [lines, ownedMembers, List.mem_flatMap, List.mem_cons, List.mem_map, head]
  constructor
  · rintro ⟨c, hc, rfl | ⟨m, hm, rfl⟩⟩
    · exact .inl ⟨_, ⟨c, hc, rfl⟩, rfl⟩
    · exact .inr ⟨_, ⟨c, hc, m, hm, rfl⟩, rfl⟩
  · rintro (⟨_, ⟨c, hc, rfl⟩, rfl⟩ | ⟨_, ⟨c, hc, m, hm, rfl⟩, rfl⟩)
    · exact ⟨c, hc, .inl rfl⟩
    · exact ⟨c, hc, .inr ⟨m, hm, rfl⟩⟩

theorem shape_eq_iff_mem : shape old = shape new ↔ ∀ line, line ∈ shape old ↔ line ∈ shape new :=
  ⟨fun h line => by rw [h],
    fun h => (Ascending.isSet_ofList _).ext (Ascending.isSet_ofList _) h⟩

/-- The line of a type is found again among the types. -/
theorem exists_head_of_shape_eq (hold : ∀ c ∈ old, Lacks ['|', '#'] c.binaryName)
    (hnew : ∀ c ∈ new, Lacks ['|', '#'] c.binaryName) (h : shape old = shape new) {c : ClassFile}
    (hc : c ∈ old) : ∃ c' ∈ new, (head c').line = (head c).line := by
  have hline : (head c).line ∈ shape new :=
    h ▸ mem_shape.mpr (.inl ⟨_, List.mem_map_of_mem hc, rfl⟩)
  rcases mem_shape.mp hline with ⟨_, hhead, heq⟩ | ⟨_, hmember, heq⟩
  · obtain ⟨c', hc', rfl⟩ := List.mem_map.mp hhead
    exact ⟨c', hc', heq⟩
  · obtain ⟨c', hc', hmember⟩ := List.mem_flatMap.mp hmember
    obtain ⟨m, -, rfl⟩ := List.mem_map.mp hmember
    exact absurd heq (memberLine_ne_line (hnew c' hc') (hold c hc))

/-- The same heads and members are seen in two lists of artifacts. -/
structure SameApi (old new : List ClassFile) : Prop where
  heads : ∀ h, h ∈ old.map head ↔ h ∈ new.map head
  members : ∀ m, m ∈ old.flatMap ownedMembers ↔ m ∈ new.flatMap ownedMembers

/-- None of the texts of an artifact that its lines show contains a mark that stands behind it. -/
@[mk_iff]
structure Legible (c : ClassFile) : Prop where
  head : (head c).Legible
  members : ∀ m ∈ visibleMembers c, LegibleMember m

instance (c : ClassFile) : Decidable (Legible c) := decidable_of_iff _ (legible_iff c).symm

/-- No member of the same type in two lists of artifacts has its name and its descriptor run
together to the same text as another name and another descriptor. -/
def ToldApart (old new : List ClassFile) : Prop :=
  ∀ m ∈ old.flatMap ownedMembers, ∀ m' ∈ new.flatMap ownedMembers, m.1 = m'.1 →
    m.2.name ++ m.2.descriptor = m'.2.name ++ m'.2.descriptor → m.2.name = m'.2.name

instance (old new : List ClassFile) : Decidable (ToldApart old new) :=
  inferInstanceAs (Decidable (∀ m ∈ old.flatMap ownedMembers, ∀ m' ∈ new.flatMap ownedMembers,
    m.1 = m'.1 → m.2.name ++ m.2.descriptor = m'.2.name ++ m'.2.descriptor → m.2.name = m'.2.name))

theorem ToldApart.symm (h : ToldApart old new) : ToldApart new old :=
  fun m hm m' hm' howner htext => (h m' hm' m hm howner.symm htext.symm).symm

theorem of_mem_ownedMembers {classes : List ClassFile} (h : ∀ c ∈ classes, Legible c)
    {m : String × Member} (hm : m ∈ classes.flatMap ownedMembers) :
    Lacks ['|', '#'] m.1 ∧ LegibleMember m.2 := by
  obtain ⟨c, hc, hm⟩ := List.mem_flatMap.mp hm
  obtain ⟨k, hk, rfl⟩ := List.mem_map.mp hm
  exact ⟨(h c hc).head.name, (h c hc).members k hk⟩

theorem heads_subset (hold : ∀ c ∈ old, Legible c) (hnew : ∀ c ∈ new, Legible c)
    (h : shape old = shape new) {seen : Head} (hseen : seen ∈ old.map head) :
    seen ∈ new.map head := by
  obtain ⟨c, hc, rfl⟩ := List.mem_map.mp hseen
  obtain ⟨c', hc', heq⟩ := exists_head_of_shape_eq (fun c hc => (hold c hc).head.name)
    (fun c hc => (hnew c hc).head.name) h hc
  rw [← Head.line_injective (hnew c' hc').head (hold c hc).head heq]
  exact List.mem_map_of_mem hc'

theorem members_subset (hold : ∀ c ∈ old, Legible c) (hnew : ∀ c ∈ new, Legible c)
    (hapart : ToldApart old new) (h : shape old = shape new) {m : String × Member}
    (hm : m ∈ old.flatMap ownedMembers) : m ∈ new.flatMap ownedMembers := by
  obtain ⟨howner, hlegible⟩ := of_mem_ownedMembers hold hm
  have hline : memberLine m.1 m.2 ∈ shape new := h ▸ mem_shape.mpr (.inr ⟨m, hm, rfl⟩)
  rcases mem_shape.mp hline with ⟨_, hhead, heq⟩ | ⟨m', hm', heq⟩
  · obtain ⟨c', hc', rfl⟩ := List.mem_map.mp hhead
    exact absurd heq.symm (memberLine_ne_line howner (hnew c' hc').head.name)
  · obtain ⟨howner', hlegible'⟩ := of_mem_ownedMembers hnew hm'
    obtain ⟨howners, hmembers⟩ := memberLine_injective howner howner' hlegible hlegible'
      (hapart m hm m' hm') heq.symm
    rwa [Prod.ext howners hmembers]

theorem SameApi.shape_eq (h : SameApi old new) : shape old = shape new := by
  refine shape_eq_iff_mem.mpr fun line => ?_
  simp only [mem_shape, h.heads, h.members]

theorem shape_eq_iff (hold : ∀ c ∈ old, Legible c) (hnew : ∀ c ∈ new, Legible c)
    (hapart : ToldApart old new) : shape old = shape new ↔ SameApi old new := by
  constructor
  · intro h
    exact ⟨fun _ => ⟨heads_subset hold hnew h, heads_subset hnew hold h.symm⟩,
      fun _ => ⟨members_subset hold hnew hapart h, members_subset hnew hold hapart.symm h.symm⟩⟩
  · exact SameApi.shape_eq

end Shapes

/-! ## What was seen last -/

namespace Cache

variable {φ τ ω : Type}

/-- The artifacts of each file that count for the next update, after one more call. -/
def seenAfter (seen : FileId → List ClassFile) : Call φ τ → FileId → List ClassFile
  | .update _ read _ file artifacts _ => Function.update seen file (loadArtifacts read artifacts)
  | .clearFile file => Function.update seen file []
  | .removeFile file => Function.update seen file []
  | .clear => fun _ => []
  | .markStale _ => seen
  | .setTree _ _ => seen
  | .setTable _ => seen

/-- The artifacts of a file at its last update, none if it was cleared since. -/
def lastSeen (calls : List (Call φ τ)) : FileId → List ClassFile :=
  calls.foldl seenAfter fun _ => []

/-- The recorded shapes are those of the artifacts seen last. -/
def Recalls (c : Cache φ τ) (seen : FileId → List ClassFile) : Prop :=
  ∀ g, (c.record g).shape = shape (seen g)

namespace Recalls

variable {c : Cache φ τ} {seen : FileId → List ClassFile}

/-- A change of one record for which artifacts are seen, or the same as before. -/
theorem modifyRecord (h : c.Recalls seen) (file : FileId) {f : Record τ → Record τ}
    {classes : List ClassFile} (hf : (f (c.record file)).shape = shape classes) :
    (c.modifyRecord file f).Recalls (Function.update seen file classes) := by
  intro g
  rw [record_modifyRecord]
  split_ifs with hg
  · subst hg
    rw [hf, Function.update_self]
  · rw [Function.update_of_ne (Ne.symm hg), h g]

theorem of_bare (h : c.Recalls seen) {d : Cache φ τ}
    (hd : ∀ g, (d.record g).bare = (c.record g).bare) : d.Recalls seen :=
  fun g => (shape_eq_of_bare (hd g)).trans (h g)

theorem unlinkAll (h : c.Recalls seen) (edges : List (FileId × FileId)) :
    (c.unlinkAll edges).Recalls seen :=
  unlinkAll_induction (P := fun d => d.Recalls seen) edges h fun d e _ hd =>
    hd.of_bare (bare_unlink d e.1 e.2)

theorem clearFile (h : c.Recalls seen) (file : FileId) :
    (c.clearFile file).Recalls (Function.update seen file []) := by
  unfold Cache.clearFile
  split
  next hnone =>
    intro g
    by_cases hg : g = file
    · subst hg
      rw [Function.update_self, record, hnone]
      rfl
    · rw [Function.update_of_ne hg, h g]
  next r hr => exact ((h.modifyRecord file rfl).unlinkAll _).unlinkAll _

theorem removeFile (h : c.Recalls seen) (file : FileId) :
    (c.removeFile file).Recalls (Function.update seen file []) := by
  intro g
  rw [record_removeFile]
  split_ifs with hg
  · subst hg
    rw [Function.update_self]
    rfl
  · exact h.clearFile file g

theorem update (h : c.Recalls seen) (source : Finder φ) (read : Path → Option (List UInt8))
    (sources : SourceMap ω) (file : FileId) (artifacts : List Path) (w : ω) :
    (c.update source read sources file artifacts w).2.1.Recalls
      (Function.update seen file (loadArtifacts read artifacts)) := by
  obtain ⟨table, -, hc⟩ := update_eq source read sources file artifacts c w
  rw [hc]
  intro g
  by_cases hg : g = file
  · subst hg
    rw [Function.update_self, (record_absorb _ g _ _).1, shape_findings]
  · rw [Function.update_of_ne hg, ← h g]
    exact shape_eq_of_bare (bare_absorb_of_ne ({ c with table } : Cache φ τ) file _ _ hg)

theorem after (h : c.Recalls seen) (call : Call φ τ) :
    (c.after call).Recalls (seenAfter seen call) := by
  cases call with
  | update source read sources file artifacts world =>
    exact h.update source read sources file artifacts world
  | clearFile file => exact h.clearFile file
  | removeFile file => exact h.removeFile file
  | clear => exact fun _ => rfl
  | markStale file =>
    have hmarked := h.modifyRecord file (f := fun r => { r with stale := true, tree := none })
      (h file)
    rwa [Function.update_eq_self] at hmarked
  | setTree file tree =>
    have hset := h.modifyRecord file (f := fun r => { r with tree := some tree }) (h file)
    rwa [Function.update_eq_self] at hset
  | setTable table => exact h

end Recalls

theorem run_recalls (table : Table φ) (prefixes : List String) (calls : List (Call φ τ)) :
    ((new table prefixes : Cache φ τ).run calls).Recalls (lastSeen calls) := by
  have hrun (c : Cache φ τ) (seen : FileId → List ClassFile) (h : c.Recalls seen) :
      (c.run calls).Recalls (calls.foldl seenAfter seen) := by
    induction calls generalizing c seen with
    | nil => exact h
    | cons call rest ih => exact ih (c.after call) (seenAfter seen call) (h.after call)
  exact hrun _ _ fun _ => rfl

/-- An update compares the shapes of the artifacts now and at the last update. -/
theorem declarationsChanged_update (table : Table φ) (prefixes : List String)
    (calls : List (Call φ τ)) (source : Finder φ) (read : Path → Option (List UInt8))
    (sources : SourceMap ω) (file : FileId) (artifacts : List Path) (w : ω) :
    (((new table prefixes : Cache φ τ).run calls).update source read sources file artifacts
        w).1.declarationsChanged = false ↔
      shape (lastSeen calls file) = shape (loadArtifacts read artifacts) := by
  obtain ⟨table', hupdate, -⟩ := update_eq source read sources file artifacts
    ((new table prefixes : Cache φ τ).run calls) w
  rw [hupdate]
  change decide (_ ≠ _) = false ↔ _
  rw [decide_eq_false_iff_not, not_not, shape_findings, ← run_recalls table prefixes calls file]
  rfl

end Cache

/-! ## Heads and members that are told apart -/

/-- Where texts can be told apart, shapes are equal if and only if the same heads and members are
seen. An update reports no change of declarations if and only if they are those of the last one. -/
theorem shape_tells_api {old new : List ClassFile} (hold : ∀ c ∈ old, Legible c)
    (hnew : ∀ c ∈ new, Legible c) (hapart : ToldApart old new) :
    (shape old = shape new ↔ SameApi old new) ∧
    ∀ {φ τ ω : Type} (table : Table φ) (prefixes : List String) (calls : List (Cache.Call φ τ))
      (source : Finder φ) (read : Path → Option (List UInt8)) (sources : SourceMap ω)
      (file : FileId) (artifacts : List Path) (w : ω),
      Cache.lastSeen calls file = old → Cache.loadArtifacts read artifacts = new →
        ((((Cache.new table prefixes : Cache φ τ).run calls).update source read sources file
          artifacts w).1.declarationsChanged = false ↔ SameApi old new) := by
  have hiff := shape_eq_iff hold hnew hapart
  refine ⟨hiff, ?_⟩
  rintro φ τ ω table prefixes calls source read sources file artifacts w rfl rfl
  rw [Cache.declarationsChanged_update, hiff]

/-- The artifact of a file. -/
def artifact : Path := ⟨"A.class"⟩

/-- A finder that finds nothing. -/
def noFinder : Finder Unit := ⟨fun _ w => (none, w), fun _ => 0⟩

/-- The first update of a file, from one class. -/
def firstUpdate (c : ClassDescription) : Cache.Call Unit Unit :=
  .update noFinder (fun _ => some c.encode) (fun _ => pure none) 0 [artifact] ()

/-- What the next update reports, after the class changed. -/
def nextUpdate (c c' : ClassDescription) : Update :=
  (((Cache.new { finder := () } [] : Cache Unit Unit).run [firstUpdate c]).update noFinder
    (fun _ => some c'.encode) (fun _ => pure none) 0 [artifact] ()).1

/-- What is seen of a class. -/
def seenOf (c : ClassDescription) : List ClassFile :=
  Cache.loadArtifacts (fun _ => some c.encode) [artifact]

theorem lastSeen_firstUpdate (c : ClassDescription) :
    Cache.lastSeen [firstUpdate c] 0 = seenOf c := by
  rw [Cache.lastSeen, List.foldl_cons, List.foldl_nil, firstUpdate, Cache.seenAfter,
    Function.update_self, seenOf]

/-- A class with a public field of a given name and type. -/
def fieldClass (name descriptor : String) : ClassDescription where
  thisClass := "A"
  fields := [{ access := 1, name, descriptor, signature := none, thrown := [] }]

/-- A field that is renamed. -/
theorem renamed_field_seen :
    let old := seenOf (fieldClass "size" "I")
    let new := seenOf (fieldClass "count" "I")
    ((∀ c ∈ old, Legible c) ∧ (∀ c ∈ new, Legible c) ∧ ToldApart old new) ∧
      (shape old = shape new ↔ SameApi old new) ∧
      ((nextUpdate (fieldClass "size" "I") (fieldClass "count" "I")).declarationsChanged = false ↔
        SameApi old new) := by
  intro old new
  have hold : ∀ c ∈ old, Legible c := by decide +kernel
  have hnew : ∀ c ∈ new, Legible c := by decide +kernel
  have hapart : ToldApart old new := by decide +kernel
  obtain ⟨hiff, hupdate⟩ := shape_tells_api hold hnew hapart
  refine ⟨⟨hold, hnew, hapart⟩, hiff, ?_⟩
  rw [nextUpdate]
  exact hupdate { finder := () } [] [firstUpdate (fieldClass "size" "I")] noFinder
    (fun _ => some (fieldClass "count" "I").encode) (fun _ => pure none) 0 [artifact] ()
    (lastSeen_firstUpdate (fieldClass "size" "I")) rfl

/-- The name and the descriptor of a member stand side by side: a field `a` of type `LB` makes way
for a field `aL` of type `B`, and no change is reported. -/
theorem renamed_field_hidden :
    let old := seenOf (fieldClass "a" "LLB;")
    let new := seenOf (fieldClass "aL" "LB;")
    shape old = shape new ∧ ¬ SameApi old new ∧
      (nextUpdate (fieldClass "a" "LLB;") (fieldClass "aL" "LB;")).declarationsChanged = false := by
  intro old new
  refine ⟨by decide +kernel, fun hsame => ?_, by decide +kernel⟩
  have hmember : ("A", (⟨1, "a", "LLB;", none, []⟩ : Member)) ∈ new.flatMap ownedMembers :=
    (hsame.members _).mp (by decide +kernel)
  revert hmember
  decide +kernel

/-! ## Access flags -/

/-- The nested-class entry that an artifact has of its own type, if any, does not contradict its
head in the flags of a mask. -/
def HeadShows (mask : UInt16) (c : ClassFile) : Prop :=
  ∀ entry ∈ c.innerClasses.find? fun e => e.inner == c.thisClass,
    entry.access &&& mask = c.access &&& mask

instance (mask : UInt16) (c : ClassFile) : Decidable (HeadShows mask c) :=
  inferInstanceAs (Decidable (∀ entry ∈ c.innerClasses.find? fun e => e.inner == c.thisClass,
    entry.access &&& mask = c.access &&& mask))

theorem HeadShows.declaredAccess {mask : UInt16} {c : ClassFile} (h : HeadShows mask c) :
    c.declaredAccess &&& mask = c.access &&& mask := by
  unfold ClassFile.declaredAccess
  split
  next entry hentry => exact h entry hentry
  next => rfl

theorem withoutSuper_and (access mask : UInt16) :
    withoutSuper access &&& mask = withoutSuper (access &&& mask) := by
  rw [withoutSuper, withoutSuper, UInt16.and_assoc, UInt16.and_assoc, UInt16.and_comm mask]

theorem exists_access_of_shape_eq {old new : List ClassFile}
    (hold : ∀ c ∈ old, Lacks ['|', '#'] c.binaryName)
    (hnew : ∀ c ∈ new, Lacks ['|', '#'] c.binaryName) (h : shape old = shape new) {c : ClassFile}
    (hc : c ∈ old) : ∃ c' ∈ new, c'.binaryName = c.binaryName ∧
      withoutSuper c'.access = withoutSuper c.access := by
  obtain ⟨c', hc', heq⟩ := exists_head_of_shape_eq hold hnew h hc
  obtain ⟨hname, haccess, -⟩ :=
    @Head.of_line_eq (head c') (head c) (hnew c' hc') (hold c hc) heq
  exact ⟨c', hc', hname, haccess⟩

/-- Artifacts of equal shapes have the same types with the same flags in their heads. The types were
declared with the same modifiers, as far as the heads show them. -/
theorem shape_tells_access {old new : List ClassFile}
    (hold : ∀ c ∈ old, Lacks ['|', '#'] c.binaryName)
    (hnew : ∀ c ∈ new, Lacks ['|', '#'] c.binaryName) (h : shape old = shape new) :
    (∀ name, name ∈ old.map ClassFile.binaryName ↔ name ∈ new.map ClassFile.binaryName) ∧
    ∀ c ∈ old, ∃ c' ∈ new, c'.binaryName = c.binaryName ∧
      withoutSuper c'.access = withoutSuper c.access ∧
      ∀ mask, HeadShows mask c → HeadShows mask c' →
        withoutSuper c'.declaredAccess &&& mask = withoutSuper c.declaredAccess &&& mask := by
  refine ⟨fun name => ⟨fun hname => ?_, fun hname => ?_⟩, fun c hc => ?_⟩
  · obtain ⟨c, hc, rfl⟩ := List.mem_map.mp hname
    obtain ⟨c', hc', hname, -⟩ := exists_access_of_shape_eq hold hnew h hc
    exact hname ▸ List.mem_map_of_mem hc'
  · obtain ⟨c, hc, rfl⟩ := List.mem_map.mp hname
    obtain ⟨c', hc', hname, -⟩ := exists_access_of_shape_eq hnew hold h.symm hc
    exact hname ▸ List.mem_map_of_mem hc'
  · obtain ⟨c', hc', hname, haccess⟩ := exists_access_of_shape_eq hold hnew h hc
    refine ⟨c', hc', hname, haccess, fun mask hshows hshows' => ?_⟩
    calc withoutSuper c'.declaredAccess &&& mask
      _ = withoutSuper c'.access &&& mask := by
        rw [withoutSuper_and, hshows'.declaredAccess, withoutSuper_and]
      _ = withoutSuper c.access &&& mask := by rw [haccess]
      _ = withoutSuper c.declaredAccess &&& mask := by
        rw [withoutSuper_and, ← hshows.declaredAccess, withoutSuper_and]

/-- A nested class whose entry has given access flags. -/
def nestedClass (access : UInt16) : ClassDescription where
  thisClass := "p/A$B"
  innerClasses := [{ inner := "p/A$B", outer := some "p/A", name := some "B", access }]

/-- A nested class whose visibility changes: the other flags are shown in its head. -/
theorem nested_access_shown :
    let old := seenOf (nestedClass 0x09)
    let new := seenOf (nestedClass 0x0C)
    ((∀ c ∈ old, Lacks ['|', '#'] c.binaryName) ∧ (∀ c ∈ new, Lacks ['|', '#'] c.binaryName) ∧
      shape old = shape new) ∧
    ((∀ c ∈ old, HeadShows 0xFFD0 c) ∧ ∀ c ∈ new, HeadShows 0xFFD0 c) ∧
    (∀ name, name ∈ old.map ClassFile.binaryName ↔ name ∈ new.map ClassFile.binaryName) ∧
    ∀ c ∈ old, ∃ c' ∈ new, c'.binaryName = c.binaryName ∧
      withoutSuper c'.access = withoutSuper c.access ∧
      withoutSuper c'.declaredAccess &&& 0xFFD0 = withoutSuper c.declaredAccess &&& 0xFFD0 := by
  intro old new
  have hold : ∀ c ∈ old, Lacks ['|', '#'] c.binaryName := by decide +kernel
  have hnew : ∀ c ∈ new, Lacks ['|', '#'] c.binaryName := by decide +kernel
  have hshape : shape old = shape new := by decide +kernel
  have hshows : ∀ c ∈ old, HeadShows 0xFFD0 c := by decide +kernel
  have hshows' : ∀ c ∈ new, HeadShows 0xFFD0 c := by decide +kernel
  obtain ⟨hnames, hclasses⟩ := shape_tells_access hold hnew hshape
  refine ⟨⟨hold, hnew, hshape⟩, ⟨hshows, hshows'⟩, hnames, fun c hc => ?_⟩
  obtain ⟨c', hc', hname, haccess, hmask⟩ := hclasses c hc
  exact ⟨c', hc', hname, haccess, hmask 0xFFD0 (hshows c hc) (hshows' c' hc')⟩

/-- A nested class that was public and static is protected and static now. A table gives it other
modifiers, but no change is reported. -/
theorem nested_access_hidden :
    let modifiers (c : ClassDescription) := ((Table.type ArtifactStore.finder "p.A$B").run
      { finder := { artifacts := .ofList [(c.thisClass, some c.encode)] } }).1.map
        Declaration.modifiers
    modifiers (nestedClass 0x09) = some 0x09 ∧ modifiers (nestedClass 0x0C) = some 0x0C ∧
      shape (seenOf (nestedClass 0x09)) = shape (seenOf (nestedClass 0x0C)) ∧
      (nextUpdate (nestedClass 0x09) (nestedClass 0x0C)).declarationsChanged = false := by
  decide +kernel

end Rebuild.Dependency
