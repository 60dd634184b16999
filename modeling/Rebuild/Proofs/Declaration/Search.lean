import Mathlib
import Rebuild.Proofs.Artifact.Size
import Rebuild.Proofs.Declaration.Lookups

/-! The search for members as a function of the artifacts. Main statement: no search ends for want
of the bound that a table computes, so what a table answers for a member has the identifier that a
search through the artifacts alone comes to, within any bound that is enough. -/
namespace Rebuild

open Artifact (ClassFile Member)
open Setting

variable {φ : Type}

theorem Dict.mem_values_of_get? {κ α : Type} [DecidableEq κ] {d : Dict κ α} {k : κ} {a : α}
    (h : d.get? k = some a) : a ∈ d.values :=
  List.mem_map_of_mem (mem_entries_of_get? h)

/-- What a map holds of some keys is no more than all that it holds. -/
theorem Dict.sum_get?_le {κ α : Type} [DecidableEq κ] (d : Dict κ α) (weight : α → Nat)
    (keys : Finset κ) :
    ∑ k ∈ keys, ((d.get? k).map weight).getD 0 ≤ (d.values.map weight).foldr (· + ·) 0 := by
  obtain ⟨entries⟩ := d
  simp only [get?, values]
  induction entries with
  | nil => simp [find]
  | cons e rest ih =>
    have hfind (k : κ) : ((find k (e :: rest)).map weight).getD 0 ≤
        (if e.1 = k then weight e.2 else 0) + ((find k rest).map weight).getD 0 := by
      by_cases h : e.1 = k <;> simp [find, h]
    refine (Finset.sum_le_sum fun k _ => hfind k).trans ?_
    rw [Finset.sum_add_distrib, Finset.sum_ite_eq]
    refine Nat.add_le_add ?_ ih
    split
    · exact Nat.le_refl _
    · exact Nat.zero_le _

/-! ## Lawful finders -/

/-- Several artifacts together have no more bytes than the finder says that there are. -/
def Finder.Bounded (source : Finder φ) : Prop :=
  ∀ s (names : Finset String),
    ∑ name ∈ names, ((source.find name s).1.getD []).length ≤ source.volume s

/-- Finders that keep to what is said of them. -/
structure Finder.Lawful (source : Finder φ) : Prop where
  steady : source.Steady
  bounded : source.Bounded

theorem ArtifactStore.finder_lawful : finder.Lawful where
  steady := finder_steady
  bounded s names := by
    have hget (name : String) : ((finder.find name s).1.getD []).length =
        ((s.artifacts.get? name).map fun artifact => (artifact.getD []).length).getD 0 := by
      change (((s.artifacts.get? name).join).getD []).length = _
      cases s.artifacts.get? name with
      | none => rfl
      | some artifact => rfl
    rw [Finset.sum_congr rfl fun name _ => hget name]
    exact s.artifacts.sum_get?_le _ names

/-- The artifacts that can be decoded are those of some contents, which together have no more bytes
than the finder says that there are. One of them may be found by several names. -/
def Finder.Counted (source : Finder φ) : Prop :=
  ∀ s, ∃ contents : List (List UInt8), (contents.map List.length).sum ≤ source.volume s ∧
    ∀ binary c, source.classFile? binary s = some c →
      ∃ bytes ∈ contents, ClassFile.decode bytes = .ok c

/-- Finders that keep to what is said of them, where several names may stand for one artifact. -/
structure Finder.Regular (source : Finder φ) : Prop where
  steady : source.Steady
  counted : source.Counted

theorem Finder.exists_of_classFile? {source : Finder φ} {binary : String} {s : φ} {c : ClassFile}
    (h : source.classFile? binary s = some c) :
    ∃ bytes, (source.find (Name.toInternal binary) s).1 = some bytes ∧
      ClassFile.decode bytes = .ok c := by
  obtain ⟨bytes, hbytes, hdecode⟩ := Option.bind_eq_some_iff.mp h
  refine ⟨bytes, hbytes, ?_⟩
  cases hresult : ClassFile.decode bytes <;> simp_all [Except.toOption]

/-- Each artifact that is not empty has a byte of its own. -/
theorem Finder.Bounded.finite {source : Finder φ} (h : source.Bounded) (s : φ) :
    {name | (source.find name s).1.getD [] ≠ []}.Finite := by
  by_contra hinfinite
  obtain ⟨names, hnames, hcard⟩ :=
    Set.Infinite.exists_subset_card_eq hinfinite (source.volume s + 1)
  have hbytes : ∑ _name ∈ names, 1 ≤ ∑ name ∈ names, ((source.find name s).1.getD []).length :=
    Finset.sum_le_sum fun name hname => List.length_pos_iff.mpr (hnames hname)
  have hle := hbytes.trans (h s names)
  rw [Finset.sum_const, smul_eq_mul, Nat.mul_one, hcard] at hle
  exact Nat.not_succ_le_self _ hle

theorem Finder.Bounded.counted {source : Finder φ} (h : source.Bounded) : source.Counted := by
  intro s
  let names : Finset String := (h.finite s).toFinset
  let content (name : String) : List UInt8 := (source.find name s).1.getD []
  refine ⟨names.toList.map content, ?_, fun binary c hc => ?_⟩
  · rw [List.map_map]
    exact (Finset.sum_map_toList names fun name => (content name).length).trans_le (h s names)
  · obtain ⟨bytes, hbytes, hdecode⟩ := exists_of_classFile? hc
    have hne : bytes ≠ [] := by
      rintro rfl
      cases hdecode
    have hname : Name.toInternal binary ∈ names.toList := by simpa [names, hbytes] using hne
    exact ⟨bytes, List.mem_map.mpr ⟨_, hname, by simp [content, hbytes]⟩, hdecode⟩

theorem Finder.Lawful.regular {source : Finder φ} (h : source.Lawful) : source.Regular :=
  ⟨h.steady, h.bounded.counted⟩

/-- Dotted names are told apart by their internal spellings. -/
theorem Name.toInternal_injective {b b' : String} (hb : Dotted b) (hb' : Dotted b')
    (h : toInternal b = toInternal b') : b = b' := by
  rw [← toBinary_toInternal hb, h, toBinary_toInternal hb']

/-! ## Searches -/

/-- The number of supertypes that the artifact of a type names. -/
def supertypeCount (view : String → Option ClassFile) (binary : String) : Nat :=
  ((view binary).map fun c => c.supertypes.length).getD 0

/-- Breadth-first search for a member through at most `n` types, and the type that declares it. -/
def searchIn (view : String → Option ClassFile) (inherited : Bool)
    (select : ClassFile → Option Member) :
    (n : Nat) → List String → List String → Option (String × Member)
  | 0, _, _ => none
  | n + 1, queue, seen =>
    match queue.dropWhile (· ∈ seen) with
    | [] => none
    | binary :: rest =>
      match view binary with
      | none => searchIn view inherited select n rest (binary :: seen)
      | some c =>
        match select c with
        | some m => some (binary, m)
        | none =>
          if inherited then
            searchIn view inherited select n (rest ++ c.supertypes.map Name.toBinary)
              (binary :: seen)
          else none

/-- A bound that is enough for a search, whichever types it meets. -/
def Enough (view : String → Option ClassFile) (n : Nat) (queue seen : List String) : Prop :=
  ∀ names : Finset String, (∀ b ∈ names, Name.Dotted b ∧ b ∉ seen) →
    queue.length + ∑ b ∈ names, supertypeCount view b ≤ n

section Searches

variable {view : String → Option ClassFile} {n m : Nat} {queue rest seen : List String}
  {binary : String}

/-- After one more type, one less is enough, with its supertypes in the queue. -/
theorem Enough.next (h : Enough view (n + 1) queue seen) (hbinary : Name.Dotted binary)
    (hqueue : queue.dropWhile (· ∈ seen) = binary :: rest) {more : List String}
    (hmore : more.length ≤ supertypeCount view binary) :
    Enough view n (rest ++ more) (binary :: seen) := by
  intro names hnames
  have hfresh : binary ∉ seen := by
    have := List.head?_dropWhile_not (· ∈ seen) queue
    simpa [hqueue] using this
  have hlength : rest.length + 1 ≤ queue.length := by
    have := (List.dropWhile_sublist (· ∈ seen) (l := queue)).length_le
    simpa [hqueue] using this
  have hnotin : binary ∉ names := fun hmem => (hnames binary hmem).2 (by simp)
  have hle := h (insert binary names) fun b hb => by
    rcases Finset.mem_insert.mp hb with rfl | hb
    · exact ⟨hbinary, hfresh⟩
    · exact ⟨(hnames b hb).1, fun hseen => (hnames b hb).2 (by simp [hseen])⟩
  rw [Finset.sum_insert hnotin] at hle
  rw [List.length_append]
  omega

theorem Enough.skip (h : Enough view (n + 1) queue seen) (hbinary : Name.Dotted binary)
    (hqueue : queue.dropWhile (· ∈ seen) = binary :: rest) :
    Enough view n rest (binary :: seen) := by
  have hnext : Enough view n (rest ++ []) (binary :: seen) :=
    h.next hbinary hqueue (Nat.zero_le _)
  rwa [List.append_nil] at hnext

theorem dotted_supertypes {c : ClassFile} (hrest : ∀ b ∈ rest, Name.Dotted b) :
    ∀ b ∈ rest ++ c.supertypes.map Name.toBinary, Name.Dotted b := by
  intro b hb
  rcases List.mem_append.mp hb with hb | hb
  · exact hrest b hb
  · obtain ⟨internal, -, rfl⟩ := List.mem_map.mp hb
    exact Name.dotted_toBinary internal

theorem dotted_dropWhile (hqueue : ∀ b ∈ queue, Name.Dotted b)
    (hdrop : queue.dropWhile (· ∈ seen) = binary :: rest) :
    Name.Dotted binary ∧ ∀ b ∈ rest, Name.Dotted b := by
  have hmem (b : String) (hb : b ∈ binary :: rest) : Name.Dotted b :=
    hqueue b ((List.dropWhile_sublist _).subset (hdrop ▸ hb))
  exact ⟨hmem binary (by simp), fun b hb => hmem b (by simp [hb])⟩

/-- Where nothing at all is enough, there is nothing to search. -/
theorem searchIn_of_enough_zero {inherited : Bool} {select : ClassFile → Option Member}
    (h : Enough view 0 queue seen) : searchIn view inherited select n queue seen = none := by
  obtain rfl : queue = [] := List.length_eq_zero_iff.mp (by simpa using h ∅ (by simp))
  cases n <;> simp [searchIn]

/-- Within bounds that are enough, a search comes to the same. -/
theorem searchIn_eq (inherited : Bool) (select : ClassFile → Option Member)
    (hqueue : ∀ b ∈ queue, Name.Dotted b) (hn : Enough view n queue seen)
    (hm : Enough view m queue seen) :
    searchIn view inherited select n queue seen = searchIn view inherited select m queue seen := by
  induction n generalizing m queue seen with
  | zero => rw [searchIn_of_enough_zero hn, searchIn_of_enough_zero hn]
  | succ n ih =>
    cases m with
    | zero => rw [searchIn_of_enough_zero hm, searchIn_of_enough_zero hm]
    | succ m =>
      cases hdrop : queue.dropWhile (· ∈ seen) with
      | nil => simp [searchIn, hdrop]
      | cons binary rest =>
        -- Both meet this type next, and what is left of each bound is enough for the rest.
        obtain ⟨hbinary, hrest⟩ := dotted_dropWhile hqueue hdrop
        simp only [searchIn, hdrop]
        cases hview : view binary with
        | none =>
          exact ih hrest (hn.skip hbinary hdrop) (hm.skip hbinary hdrop)
        | some c =>
          have hmore : (c.supertypes.map Name.toBinary).length ≤ supertypeCount view binary := by
            simp [supertypeCount, hview]
          cases hselect : select c with
          | some f => simp only [hselect]
          | none =>
            simp only [hselect]
            split
            · exact ih (dotted_supertypes hrest) (hn.next hbinary hdrop hmore)
                (hm.next hbinary hdrop hmore)
            · rfl

/-- A search looks only at dotted names, if it starts with such names. -/
theorem searchIn_congr {other : String → Option ClassFile}
    (hview : ∀ b, Name.Dotted b → view b = other b) (inherited : Bool)
    (select : ClassFile → Option Member) (n : Nat) (hqueue : ∀ b ∈ queue, Name.Dotted b) :
    searchIn view inherited select n queue seen = searchIn other inherited select n queue seen := by
  induction n generalizing queue seen with
  | zero => rfl
  | succ n ih =>
    rw [searchIn, searchIn]
    cases hdrop : queue.dropWhile (· ∈ seen) with
    | nil => rfl
    | cons binary rest =>
      obtain ⟨hbinary, hrest⟩ := dotted_dropWhile hqueue hdrop
      simp only [hview binary hbinary, ih hrest]
      cases other binary with
      | none => rfl
      | some c => simp only [ih (dotted_supertypes hrest)]

end Searches

/-! ## Members of tables -/

namespace Table

variable {S : Setting φ} {t : Table φ} {view : String → Option ClassFile}

/-- A search through a table comes to what a search through all that it knows or finds does. -/
theorem searchMember_view (hsteady : S.source.Steady) (hview : ∀ b, t.view S.source b = view b)
    (inherited : Bool) (select : ClassFile → Option Member) (n : Nat) (queue seen : List String) :
    S.Yields t (searchMember S.source inherited select n queue seen) fun r _ =>
      r.map (fun r => (r.1.id, r.2)) = searchIn view inherited select n queue seen := by
  induction n generalizing t queue seen with
  | zero => exact .pure fun _ => rfl
  | succ n ih =>
    rw [searchMember, searchIn]
    cases hdrop : queue.dropWhile (· ∈ seen) with
    | nil => exact .pure fun _ => rfl
    | cons binary rest =>
      have hfile : S.Yields t (classFile S.source binary) fun c _ => c = view binary :=
        fun ht => ⟨(classFile_yields binary ht).1, hview binary⟩
      refine .bind hfile fun c t₁ hsteps hc => ?_
      have hview₁ (b : String) : t₁.view S.source b = view b :=
        (hsteps.view_eq hsteady b).trans (hview b)
      cases c with
      | none =>
        simp only [← hc]
        exact ih hview₁ _ _
      | some c =>
        simp only [← hc]
        cases hselect : select c with
        | some m =>
          refine .map ((type_view binary).mono fun d _ _ _ hd => ?_)
          rw [hview₁, ← hc] at hd
          cases d <;> simp_all
        | none =>
          simp only
          split
          · exact ih hview₁ _ _
          · exact .pure fun _ => rfl

theorem searchMember_searchIn (hsteady : S.source.Steady) (hview : S.Views t view)
    (inherited : Bool) (select : ClassFile → Option Member) (n : Nat) {queue seen : List String}
    (hqueue : ∀ b ∈ queue, Name.Dotted b) :
    S.Yields t (searchMember S.source inherited select n queue seen) fun r _ =>
      r.map (fun r => (r.1.id, r.2)) = searchIn view inherited select n queue seen := by
  rw [← searchIn_congr hview inherited select n hqueue]
  exact searchMember_view hsteady (fun _ => rfl) inherited select n queue seen

/-- The supertypes of an artifact that was loaded. -/
def loaded : Option ClassFile → Nat
  | some c => c.supertypes.length
  | none => 0

/-- What a table computes is enough: a type whose artifact it has not loaded takes bytes of its
own for the supertypes that it names. -/
theorem enough_searchBound (hbounded : S.source.Bounded) (hview : S.Views t view) (start : String) :
    Enough view (t.searchBound S.source) [start] [] := by
  intro names hnames
  let size (internal : String) : Nat := ((S.source.find internal t.finder).1.getD []).length
  have hcount (b : String) (hb : b ∈ names) : supertypeCount view b ≤
      ((t.classes.get? b).map loaded).getD 0 + size (Name.toInternal b) := by
    rw [supertypeCount, ← hview b (hnames b hb).1, view_eq]
    cases t.classes.get? b with
    | some known => cases known <;> simp [loaded]
    | none =>
      cases hfile : S.source.classFile? b t.finder with
      | none => simp
      | some c =>
        obtain ⟨bytes, hbytes, hc⟩ := Finder.exists_of_classFile? hfile
        simpa [hfile, size, hbytes] using ClassFile.supertypes_length_le hc
  have hsize : ∑ b ∈ names, size (Name.toInternal b) ≤ S.source.volume t.finder := by
    rw [← Finset.sum_image fun b hb b' hb' =>
      Name.toInternal_injective (hnames b hb).1 (hnames b' hb').1]
    exact hbounded t.finder _
  calc [start].length + ∑ b ∈ names, supertypeCount view b
      ≤ 1 + (∑ b ∈ names, ((t.classes.get? b).map loaded).getD 0 +
          ∑ b ∈ names, size (Name.toInternal b)) := by
        rw [← Finset.sum_add_distrib]
        exact Nat.add_le_add_left (Finset.sum_le_sum hcount) 1
    _ ≤ 1 + ((t.classes.values.map loaded).foldr (· + ·) 0 + S.source.volume t.finder) :=
        Nat.add_le_add_left (Nat.add_le_add (t.classes.sum_get?_le loaded names) hsize) 1
    _ = 1 + S.source.volume t.finder + (t.classes.values.map loaded).foldr (· + ·) 0 := by
        rw [Nat.add_comm (List.foldr _ _ _), Nat.add_assoc]
    _ = t.searchBound S.source := rfl

variable {n : Nat}

theorem findMember_searchIn (hlawful : S.source.Lawful) (hview : S.Views t view)
    {start : Declaration} (hstart : Name.Dotted start.id) (inherited : Bool)
    (select : ClassFile → Option Member) (hn : Enough view n [start.id] []) :
    S.Yields t (findMember S.source start inherited select) fun r _ =>
      r.map (fun r => (r.1.id, r.2)) = searchIn view inherited select n [start.id] [] := by
  have hqueue : ∀ b ∈ [start.id], Name.Dotted b := by simpa using hstart
  rw [searchIn_eq inherited select hqueue hn (enough_searchBound hlawful.bounded hview start.id)]
  exact .get_bind (searchMember_searchIn hlawful.steady hview inherited select _ hqueue)

/-- A field has the identifier that the type found and its name make. -/
theorem field_named {owner : Declaration} {name : String} (hname : S.names.word name)
    {found : Option (String × Member)} (hfound : S.Yields t (findMember S.source owner true
      fun c => c.fields.find? fun f => f.name == name) fun r _ =>
        r.map (fun r => (r.1.id, r.2)) = found) :
    S.Yields t (field S.source owner name) fun d _ => d.map Declaration.id =
      found.map fun r => r.1 ++ "#" ++ name := by
  refine .bind ((findMember_yields owner true _).and hfound) fun r t₁ _ hr => ?_
  rw [← hr.2]
  cases r with
  | none => exact .pure fun _ => rfl
  | some r =>
    refine .map (.mono (intern_yields (fun _ => rfl) (fun _ => rfl) (fun _ => rfl)
      fun _ _ => ?_) fun d _ _ _ hd => ?_)
    · exact .field rfl hr.1.2 hname rfl
    · exact congrArg some hd.2

theorem field_searchIn (hlawful : S.source.Lawful) (hview : S.Views t view) {owner : Declaration}
    (howner : Name.Dotted owner.id) (name : String) (hname : S.names.word name)
    (hn : Enough view n [owner.id] []) :
    S.Yields t (field S.source owner name) fun d _ => d.map Declaration.id =
      (searchIn view true (fun c => c.fields.find? fun f => f.name == name) n [owner.id] []).map
        fun r => r.1 ++ "#" ++ name :=
  field_named hname (findMember_searchIn hlawful hview howner true _ hn)

/-- A method or a constructor has the identifier that the type found, its name and its parameter
types make. -/
theorem executable_named {owner : Declaration} {name : String} {params : List FieldType}
    {kind : DeclarationKind} (hspelled : ∀ d : Declaration, d.kind = kind → ∀ declaring,
      S.names.type declaring → d.id = executableId declaring name params → Spelled S.names d)
    {found : Option (String × Member)} (hfound : S.Yields t (findMember S.source owner
      (kind == .method) fun c => c.methods.find? (isMethod name params)) fun r _ =>
        r.map (fun r => (r.1.id, r.2)) = found) :
    S.Yields t (executable S.source owner name params kind) fun d _ => d.map Declaration.id =
      found.map fun r => executableId r.1 name params := by
  refine .bind ((findMember_yields owner (kind == .method) _).and hfound) fun r t₁ _ hr => ?_
  rw [← hr.2]
  cases r with
  | none => exact .pure fun _ => rfl
  | some r =>
    refine .map (.mono (intern_yields (fun _ => rfl) (fun _ => rfl) (fun _ => rfl)
      fun _ _ => ?_) fun d _ _ _ hd => ?_)
    · exact hspelled _ rfl r.1.id hr.1.2 rfl
    · exact congrArg some hd.2

theorem executable_searchIn (hlawful : S.source.Lawful) (hview : S.Views t view)
    {owner : Declaration} (howner : Name.Dotted owner.id) (name : String)
    (params : List FieldType) (kind : DeclarationKind) (hspelled : ∀ d : Declaration,
      d.kind = kind → ∀ declaring, S.names.type declaring →
        d.id = executableId declaring name params → Spelled S.names d)
    (hn : Enough view n [owner.id] []) :
    S.Yields t (executable S.source owner name params kind) fun d _ => d.map Declaration.id =
      (searchIn view (kind == .method) (fun c => c.methods.find? (isMethod name params)) n
        [owner.id] []).map fun r => executableId r.1 name params :=
  executable_named hspelled (findMember_searchIn hlawful hview howner (kind == .method) _ hn)

theorem method_searchIn (hlawful : S.source.Lawful) (hview : S.Views t view) {owner : Declaration}
    (howner : Name.Dotted owner.id) (name : String) (params : List FieldType)
    (hname : S.names.word name) (hparams : ∀ p ∈ params, FieldType.Within S.names.word p)
    (hn : Enough view n [owner.id] []) :
    S.Yields t (method S.source owner name params) fun d _ => d.map Declaration.id =
      (searchIn view true (fun c => c.methods.find? (isMethod name params)) n [owner.id] []).map
        fun r => executableId r.1 name params :=
  executable_searchIn hlawful hview howner name params .method
    (fun _ hkind _ howner hid => .method hkind howner hname hparams hid) hn

/-- Constructors are looked for in the type alone. -/
theorem constructor_searchIn (hlawful : S.source.Lawful) (hview : S.Views t view)
    {owner : Declaration} (howner : Name.Dotted owner.id) (params : List FieldType)
    (hparams : ∀ p ∈ params, FieldType.Within S.names.word p) (hn : Enough view n [owner.id] []) :
    S.Yields t (constructor S.source owner params) fun d _ => d.map Declaration.id =
      (searchIn view false (fun c => c.methods.find? (isMethod "<init>" params)) n
        [owner.id] []).map fun r => executableId r.1 "<init>" params :=
  executable_searchIn hlawful hview howner "<init>" params .constructor
    (fun _ hkind _ howner hid => .constructor hkind howner hparams hid) hn

end Table

end Rebuild
