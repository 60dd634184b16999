import Mathlib
import Rebuild.Classpath
import Rebuild.Proofs.FileTree.Agreement

/-! Trees that hold the same, apart from the times of changes. Main statements: whatever is read of
one is read of the other, and the same edits leave them alike. -/
namespace Rebuild.FileTree

/-- Both trees have the same directories, and the same files with the same contents. -/
structure Alike (t u : FileTree) : Prop where
  directories : t.SameDirectories u
  contents : ∀ q, t.content? q = u.content? q

/-- What a file holds; nothing is said of a directory. -/
def held : Entry → Option Content
  | .directory _ => none
  | .file content _ => some content

/-- Two results agree: either both are the same fault, or both are there and related. -/
def Both {α : Type} (R : α → α → Prop) (a b : Except FileFault α) : Prop :=
  match a, b with
  | .ok x, .ok y => R x y
  | .error e, .error f => e = f
  | _, _ => False

namespace Alike

variable {t u v : FileTree} {p : Path}

theorem refl (t : FileTree) : t.Alike t := ⟨.refl t, fun _ => rfl⟩

theorem symm (h : t.Alike u) : u.Alike t := ⟨h.directories.symm, fun q => (h.contents q).symm⟩

theorem trans (h : t.Alike u) (h' : u.Alike v) : t.Alike v :=
  ⟨h.directories.trans h'.directories, fun q => (h.contents q).trans (h'.contents q)⟩

/-- Trees are alike if they are so at the places that either one lists. -/
theorem iff_forall_keys : t.Alike u ↔ ∀ place ∈ t.entries.keys ++ u.entries.keys,
    t.isDirectoryAt place = u.isDirectoryAt place ∧ t.content? place = u.content? place := by
  refine ⟨fun h place _ => ⟨h.directories place, h.contents place⟩, fun h =>
    ⟨fun place => ?_, fun place => content?_eq_of_keys fun hplace => (h place hplace).2⟩⟩
  by_cases hplace : place ∈ t.entries.keys ++ u.entries.keys
  · exact (h place hplace).1
  · -- At other places both trees have nothing, unless it is the root.
    rw [List.mem_append, not_or] at hplace
    by_cases hroot : place = []
    · rw [hroot]
      rfl
    · have hnone {v : FileTree} (hv : place ∉ v.entries.keys) : v.entry? place = none :=
        Option.not_isSome_iff_eq_none.mp fun hsome => hv (mem_keys_of_isSome hsome hroot)
      unfold isDirectoryAt
      rw [hnone hplace.1, hnone hplace.2]

instance (t u : FileTree) : Decidable (t.Alike u) := decidable_of_iff _ iff_forall_keys.symm

/-! ## Reading -/

/-- At each place both trees have the same, or nothing. -/
theorem held_eq (h : t.Alike u) (q : List String) :
    (t.entry? q).map held = (u.entry? q).map held := by
  have hdirectory := h.directories q
  have hcontent := h.contents q
  unfold isDirectoryAt at hdirectory
  unfold content? at hcontent
  generalize t.entry? q = a at hdirectory hcontent ⊢
  generalize u.entry? q = b at hdirectory hcontent ⊢
  rcases a with _ | ⟨_⟩ | ⟨_, _⟩ <;> rcases b with _ | ⟨_⟩ | ⟨_, _⟩ <;> simp_all [held]

theorem isSome_entry? (h : t.Alike u) (q : List String) :
    (t.entry? q).isSome = (u.entry? q).isSome := by
  have hheld := congrArg Option.isSome (h.held_eq q)
  rwa [Option.isSome_map, Option.isSome_map] at hheld

theorem step_eq (h : t.Alike u) (place : List String) (piece : List Char) :
    t.step place piece = u.step place piece := by
  unfold step
  rw [h.directories place]
  simp only [h.isSome_entry?]

theorem follow_eq (h : t.Alike u) (place : List String) (pieces : List (List Char)) :
    t.follow place pieces = u.follow place pieces := by
  induction pieces generalizing place with
  | nil => rfl
  | cons piece rest ih =>
    unfold follow
    simp only [h.step_eq, ih]

theorem resolve_eq (h : t.Alike u) (p : Path) : t.resolve p = u.resolve p := by
  unfold resolve
  simp only [h.follow_eq]

theorem lookup_both (h : t.Alike u) (p : Path) :
    Both (fun a b => held a = held b) (t.lookup p) (u.lookup p) := by
  unfold lookup
  rw [h.resolve_eq]
  rcases u.resolve p with fault | place
  · exact rfl
  · have hheld := h.held_eq place
    simp only [bind, Except.bind]
    generalize t.entry? place = a at hheld ⊢
    generalize u.entry? place = b at hheld ⊢
    rcases a with _ | a <;> rcases b with _ | b
    · exact rfl
    · cases hheld
    · cases hheld
    · exact Option.some.inj hheld

/-- A path leads to the same fault in both trees, or to entries that hold the same. -/
theorem lookup_cases (h : t.Alike u) (p : Path) : t.lookup p = u.lookup p ∨
    ∃ a b, t.lookup p = .ok a ∧ u.lookup p = .ok b ∧ held a = held b := by
  have hboth := h.lookup_both p
  generalize t.lookup p = a at hboth ⊢
  generalize u.lookup p = b at hboth ⊢
  rcases a with fault | a <;> rcases b with fault' | b
  · exact .inl (congrArg Except.error hboth)
  · cases hboth
  · cases hboth
  · exact .inr ⟨a, b, rfl, rfl, hboth⟩

theorem content_eq (h : t.Alike u) (p : Path) : t.content p = u.content p := by
  unfold content
  rcases h.lookup_cases p with hsame | ⟨a, b, ha, hb, hheld⟩
  · rw [hsame]
  · rw [ha, hb]
    rcases a with _ | _ <;> rcases b with _ | _ <;> cases hheld <;> rfl

theorem read_eq (h : t.Alike u) (p : Path) : t.read p = u.read p := by
  unfold read
  rw [h.content_eq]

theorem readText_eq (h : t.Alike u) (p : Path) : t.readText p = u.readText p := by
  unfold readText
  rw [h.read_eq]

theorem isFile_eq (h : t.Alike u) (p : Path) : t.isFile p = u.isFile p := by
  unfold isFile
  rcases h.lookup_cases p with hsame | ⟨a, b, ha, hb, hheld⟩
  · rw [hsame]
  · rw [ha, hb]
    rcases a with _ | _ <;> rcases b with _ | _ <;> cases hheld <;> rfl

theorem snapshot_eq (h : t.Alike u) (p : Path) : t.snapshot p = u.snapshot p := by
  unfold snapshot
  rcases h.lookup_cases p with hsame | ⟨a, b, ha, hb, hheld⟩
  · rw [hsame]
  · rw [ha, hb]
    rcases a with _ | ⟨content, _⟩ <;> rcases b with _ | _ <;> cases hheld
    · rfl
    · cases content <;> rfl

/-! ## Class paths -/

theorem findInEntry_eq (h : t.Alike u) (entry : ClasspathEntry) (internal : String)
    (c : Classpath) : c.findInEntry t entry internal = c.findInEntry u entry internal := by
  cases entry with
  | directory dir =>
    simp only [Classpath.findInEntry, Classpath.findInDirectory, h.read_eq]
  | archive p =>
    simp only [Classpath.findInEntry, Classpath.findInArchive, h.snapshot_eq]

theorem findIn_eq (h : t.Alike u) (internal : String) (entries : List ClasspathEntry)
    (c : Classpath) : Classpath.findIn t internal entries c = Classpath.findIn u internal entries c := by
  induction entries generalizing c with
  | nil => rfl
  | cons entry rest ih =>
    unfold Classpath.findIn
    rw [h.findInEntry_eq]
    simp only [ih]

theorem find_eq (h : t.Alike u) (c : Classpath) (internal : String) :
    c.find t internal = c.find u internal :=
  h.findIn_eq internal c.entries c

/-! ## Edits -/

theorem putChild (h : t.Alike u) (directory : List String) (name : String) {a b : Entry}
    (hheld : held a = held b) : (t.putChild directory name a).Alike (u.putChild directory name b) := by
  refine ⟨fun q => ?_, fun q => ?_⟩
  · rw [isDirectoryAt_putChild, isDirectoryAt_putChild, h.directories q]
    cases a <;> cases b <;> first | rfl | cases hheld
  · rw [content?_putChild, content?_putChild, h.contents q]
    cases a <;> cases b <;> cases hheld <;> rfl

theorem makeSingle (h : t.Alike u) (p : Path) : Both Alike (t.makeSingle p) (u.makeSingle p) := by
  unfold FileTree.makeSingle
  simp only [h.follow_eq, h.step_eq, bind, Except.bind]
  rcases FileTree.pieces p with fault | pieces
  · exact rfl
  dsimp only
  rcases u.follow [] (Path.trimSlashes pieces).dropLast with fault | directory
  · exact rfl
  dsimp only
  rcases u.step directory ((Path.trimSlashes pieces).getLastD []) with fault | place
  · cases fault
    case notFound => exact h.putChild directory _ rfl
    all_goals exact rfl
  · exact rfl

theorem isDirectory_eq (h : t.Alike u) (p : Path) : t.isDirectory p = u.isDirectory p := by
  unfold isDirectory
  rcases h.lookup_cases p with hsame | ⟨a, b, ha, hb, hheld⟩
  · rw [hsame]
  · rw [ha, hb]
    rcases a with _ | _ <;> rcases b with _ | _ <;> cases hheld <;> rfl

/-- By induction on the number of directories that can be made. -/
theorem makeWithin (h : t.Alike u) (n : Nat) (p : Path) :
    (t.makeWithin n p).1 = (u.makeWithin n p).1 ∧
      (t.makeWithin n p).2.Alike (u.makeWithin n p).2 := by
  induction n generalizing t u p with
  | zero => exact ⟨rfl, h⟩
  | succ n ih =>
    unfold FileTree.makeWithin
    split_ifs
    · exact ⟨rfl, h⟩
    have hmade := h.makeSingle p
    generalize t.makeSingle p = made at hmade ⊢
    generalize u.makeSingle p = made' at hmade ⊢
    rcases made with fault | t₁ <;> rcases made' with fault' | u₁
    · obtain rfl : fault = fault' := hmade
      cases fault
      case notFound =>
        rcases p.parent? with _ | parent
        · exact ⟨rfl, h⟩
        · obtain ⟨hdone, habove⟩ := ih h parent
          dsimp only
          generalize t.makeWithin n parent = within at hdone habove ⊢
          generalize u.makeWithin n parent = within' at hdone habove ⊢
          rcases within with ⟨done, t₁⟩
          rcases within' with ⟨done', u₁⟩
          obtain rfl : done = done' := hdone
          cases done
          · exact ⟨rfl, habove⟩
          · have hlast := Alike.makeSingle habove p
            dsimp only
            generalize t₁.makeSingle p = last at hlast ⊢
            generalize u₁.makeSingle p = last' at hlast ⊢
            rcases last with fault | t₂ <;> rcases last' with fault' | u₂
            · exact ⟨habove.isDirectory_eq p, habove⟩
            · cases hlast
            · cases hlast
            · exact ⟨rfl, hlast⟩
      all_goals exact ⟨h.isDirectory_eq p, h⟩
    · cases hmade
    · cases hmade
    · exact ⟨rfl, hmade⟩

theorem putFile (h : t.Alike u) (p : Path) (content : Content) :
    Both Alike (t.putFile p content) (u.putFile p content) := by
  unfold FileTree.putFile
  simp only [h.follow_eq, h.step_eq, h.directories _, bind, Except.bind]
  rcases FileTree.pieces p with fault | pieces
  · exact rfl
  dsimp only
  rcases u.follow [] pieces.dropLast with fault | directory
  · exact rfl
  dsimp only
  have hput := h.putChild directory (String.ofList (pieces.getLastD []))
    (a := .file content t.now) (b := .file content u.now) rfl
  by_cases hname : Path.isName (pieces.getLastD [])
  · simp only [hname, Bool.not_true, Bool.false_eq_true, ↓reduceIte]
    rcases u.step directory (pieces.getLastD []) with fault | place
    · cases fault
      case notFound => exact hput
      all_goals exact rfl
    · simp only
      split_ifs
      · exact rfl
      · exact hput
  · simp only [hname, Bool.not_false, ↓reduceIte]
    exact rfl

/-- A file that cannot be put leaves the tree as it was. -/
theorem putFile_or_same (h : t.Alike u) (p : Path) (content : Content) :
    (match t.putFile p content with | .ok t => t | .error _ => t).Alike
      (match u.putFile p content with | .ok u => u | .error _ => u) := by
  have hput := h.putFile p content
  generalize t.putFile p content = written at hput ⊢
  generalize u.putFile p content = written' at hput ⊢
  rcases written with fault | t₂ <;> rcases written' with fault' | u₂
  · exact h
  · cases hput
  · cases hput
  · exact hput

theorem write (h : t.Alike u) (p : Path) (content : Content) :
    (t.write p content).Alike (u.write p content) := by
  apply putFile_or_same
  rcases p.parent? with _ | parent
  · exact h
  · exact (h.makeWithin _ parent).2

theorem writeAll (h : t.Alike u) (files : List (Path × Content)) :
    (t.writeAll files).Alike (u.writeAll files) := by
  induction files generalizing t u with
  | nil => exact h
  | cons file rest ih => exact ih (h.write file.1 file.2)

end Alike

end Rebuild.FileTree
