import Mathlib
import Rebuild.Artifact.ClassFile

/-! The sizes of artifacts. Main statement: an artifact has a byte for each supertype that it
names, so the supertypes of several artifacts are no more than their bytes. -/
namespace Rebuild.Artifact

namespace Reader

variable {α β : Type}

/-- What a reader yields takes at least so many bytes. -/
def Takes (reader : Reader α) (size : α → Nat) : Prop :=
  ∀ cursor a cursor', reader cursor = .ok (a, cursor') →
    cursor'.rest.length + size a ≤ cursor.rest.length

/-- A reader that leaves no more than there was. -/
abbrev Shrinks (reader : Reader α) : Prop := reader.Takes fun _ => 0

namespace Takes

variable {reader : Reader α} {size other : α → Nat}

theorem mono (h : reader.Takes size) (hle : ∀ a, other a ≤ size a) : reader.Takes other := by
  intro cursor a cursor' hread
  have := h cursor a cursor' hread
  have := hle a
  omega

theorem shrinks (h : reader.Takes size) : reader.Shrinks := h.mono fun _ => Nat.zero_le _

theorem pure {a : α} (h : size a = 0) : Takes (pure a : Reader α) size := by
  rintro cursor _ _ ⟨⟩
  omega

/-- What is left to account for after a first reader. -/
theorem bind {next : α → Reader β} {total : β → Nat} (h : reader.Takes size)
    (hnext : ∀ a, (next a).Takes fun b => total b - size a) : (reader >>= next).Takes total := by
  intro cursor b cursor' hread
  change (reader cursor).bind (fun r => next r.1 r.2) = .ok (b, cursor') at hread
  cases hfirst : reader cursor with
  | error e => simp [hfirst, Except.bind] at hread
  | ok r =>
    obtain ⟨a, middle⟩ := r
    have hle := h cursor a middle hfirst
    have hle' : cursor'.rest.length + (total b - size a) ≤ middle.rest.length :=
      hnext a middle b cursor' (by simpa [hfirst, Except.bind] using hread)
    omega

end Takes

theorem bytes_takes (count : Nat) : (bytes count).Takes fun _ => count := by
  intro cursor a cursor' hread
  unfold bytes at hread
  split at hread
  · cases hread
    simp only [List.length_drop]
    omega
  · cases hread

theorem number_takes (count : Nat) : (number <$> bytes count).Takes fun _ => count := by
  rw [map_eq_pure_bind]
  exact (bytes_takes count).bind fun _ => .pure (Nat.sub_self _)

theorem u1_takes : u1.Takes fun _ => 1 := number_takes 1

theorem u2_takes : u2.Takes fun _ => 2 := number_takes 2

theorem u4_takes : u4.Takes fun _ => 4 := number_takes 4

theorem u8_shrinks : u8.Shrinks :=
  u4_takes.shrinks.bind fun _ => u4_takes.shrinks.bind fun _ => .pure rfl

theorem lift_shrinks (result : Except DecodeError α) : (lift result).Shrinks := by
  intro cursor a cursor' hread
  cases result with
  | error e => cases hread
  | ok b => cases hread; exact Nat.le_refl _

theorem throw_shrinks (e : DecodeError) : (throw e : Reader α).Shrinks := by
  rintro cursor a cursor' ⟨⟩

theorem finish_shrinks : finish.Shrinks := by
  intro cursor a cursor' hread
  unfold finish at hread
  split at hread <;> cases hread
  exact Nat.le_refl _

/-- Items take what each of them takes. -/
theorem times_takes {reader : Reader α} {size : α → Nat} (h : reader.Takes size) (count : Nat) :
    (times reader count).Takes fun l => (l.map size).sum := by
  induction count with
  | zero => exact .pure rfl
  | succ count ih =>
    refine h.bind fun a => (ih.mono fun l => Nat.le_refl _).bind fun rest => .pure ?_
    rw [List.map_cons, List.sum_cons, Nat.add_sub_cancel_left, Nat.sub_self]

theorem counted_takes {reader : Reader α} {size : α → Nat} (h : reader.Takes size) :
    (counted reader).Takes fun l => (l.map size).sum :=
  u2_takes.bind fun count => (times_takes h count).mono fun _ => Nat.sub_le _ _

theorem counted_shrinks {reader : Reader α} (h : reader.Shrinks) : (counted reader).Shrinks :=
  (counted_takes h).shrinks

end Reader

open Reader

theorem Constant.read_shrinks (index : Nat) : (Constant.read index).Shrinks := by
  refine u1_takes.shrinks.bind fun tag => ?_
  split
  · refine u2_takes.shrinks.bind fun length => (bytes_takes length).shrinks.bind fun bytes => ?_
    split
    · exact .pure rfl
    · exact throw_shrinks _
  -- All other entries are one or two numbers.
  all_goals first
    | exact throw_shrinks _
    | exact u4_takes.shrinks.bind fun _ => .pure rfl
    | exact u8_shrinks.bind fun _ => .pure rfl
    | exact u2_takes.shrinks.bind fun _ => .pure rfl
    | exact u2_takes.shrinks.bind fun _ => u2_takes.shrinks.bind fun _ => .pure rfl
    | exact u1_takes.shrinks.bind fun _ => u2_takes.shrinks.bind fun _ => .pure rfl

theorem ConstantPool.readPlaces_shrinks (count left : Nat) (afterWide : Bool) :
    (readPlaces count left afterWide).Shrinks := by
  induction left generalizing afterWide with
  | zero => cases afterWide <;> exact .pure rfl
  | succ left ih =>
    cases afterWide with
    | true => exact (ih false).bind fun _ => .pure rfl
    | false =>
      exact (Constant.read_shrinks _).bind fun entry => (ih entry.isWide).bind fun _ => .pure rfl

theorem ConstantPool.read_shrinks : ConstantPool.read.Shrinks :=
  u2_takes.shrinks.bind fun count => (readPlaces_shrinks count _ _).bind fun _ => .pure rfl

namespace Attributes

theorem readClassName_takes (pool : ConstantPool) : (readClassName pool).Takes fun _ => 1 :=
  (u2_takes.mono fun _ => Nat.le_succ 1).bind fun _ => lift_shrinks _

theorem readMore_shrinks (holder : Holder) (pool : ConstantPool) (count : Nat) (kept : Attributes) :
    (readMore holder pool count kept).Shrinks := by
  induction count generalizing kept with
  | zero => exact .pure rfl
  | succ count ih =>
    exact u2_takes.shrinks.bind fun _ => u4_takes.shrinks.bind fun length =>
      (bytes_takes length).shrinks.bind fun _ => (lift_shrinks _).bind fun _ =>
        (lift_shrinks _).bind fun kept => ih kept

theorem read_shrinks (holder : Holder) (pool : ConstantPool) : (read holder pool).Shrinks :=
  u2_takes.shrinks.bind fun count => readMore_shrinks holder pool count {}

end Attributes

theorem Member.read_shrinks (pool : ConstantPool) : (Member.read pool).Shrinks :=
  u2_takes.shrinks.bind fun _ => u2_takes.shrinks.bind fun _ => (lift_shrinks _).bind fun _ =>
    u2_takes.shrinks.bind fun _ => (lift_shrinks _).bind fun _ =>
      (Attributes.read_shrinks .member pool).bind fun _ => .pure rfl

namespace ClassFile

theorem readMagic_shrinks : readMagic.Shrinks := by
  refine u4_takes.shrinks.bind fun word => ?_
  split
  · exact .pure rfl
  · exact throw_shrinks _

/-- The bytes of the access flags account for the super class. -/
theorem read_takes : read.Takes fun c => c.supertypes.length := by
  refine readMagic_shrinks.bind fun _ => u2_takes.shrinks.bind fun _ =>
    u2_takes.shrinks.bind fun _ => ConstantPool.read_shrinks.bind fun pool =>
    u2_takes.bind fun _ => (Attributes.readClassName_takes pool).shrinks.bind fun _ =>
    u2_takes.shrinks.bind fun _ => (lift_shrinks _).bind fun superClass =>
    (counted_takes (Attributes.readClassName_takes pool)).bind fun interfaces =>
    (counted_shrinks (Member.read_shrinks pool)).bind fun _ =>
    (counted_shrinks (Member.read_shrinks pool)).bind fun _ =>
    (Attributes.read_shrinks .type pool).bind fun _ => finish_shrinks.bind fun _ => .pure ?_
  have hsuper : superClass.toList.length ≤ 1 := by cases superClass <;> simp
  simp only [supertypes, List.length_append, List.map_const', List.sum_replicate, smul_eq_mul]
  omega

/-- An artifact names no more supertypes than it has bytes. -/
theorem supertypes_length_le {bytes : List UInt8} {c : ClassFile} (h : decode bytes = .ok c) :
    c.supertypes.length ≤ bytes.length := by
  unfold decode Reader.run at h
  cases hread : read ⟨bytes, 0⟩ with
  | error e =>
    rw [hread] at h
    cases h
  | ok r =>
    rw [hread] at h
    cases h
    have := read_takes ⟨bytes, 0⟩ r.1 r.2 hread
    exact Nat.le_of_add_left_le this

end ClassFile

end Rebuild.Artifact
