import Mathlib
import Rebuild.Artifact.Writer

/-! What readers take from the front of a byte string. Main statements: numbers of two and of four
bytes are read as they were written, and so is a list behind its length. -/
namespace Rebuild.Artifact.Reader

variable {α β : Type} {reader : Reader α} {next : α → Reader β} {first bytes : List UInt8}
  {a : α} {b : β}

theorem bind_apply (reader : Reader α) (next : α → Reader β) (cursor : Cursor) :
    (reader >>= next) cursor = (reader cursor).bind fun r => next r.1 r.2 := rfl

/-- A reader takes these bytes from the front, whatever follows, and yields this value. -/
def Reads (reader : Reader α) (bytes : List UInt8) (a : α) : Prop :=
  ∀ rest offset, reader ⟨bytes ++ rest, offset⟩ = .ok (a, ⟨rest, offset + bytes.length⟩)

/-- A reader takes all of these bytes and yields this value. -/
def ReadsAll (reader : Reader α) (bytes : List UInt8) (a : α) : Prop :=
  ∀ offset, reader ⟨bytes, offset⟩ = .ok (a, ⟨[], offset + bytes.length⟩)

namespace Reads

theorem pure (a : α) : Reads (pure a) [] a := by
  intro rest offset
  rfl

theorem bind (h : reader.Reads first a) (hnext : (next a).Reads bytes b) :
    (reader >>= next).Reads (first ++ bytes) b := by
  intro rest offset
  rw [bind_apply, List.append_assoc, h]
  show next a ⟨bytes ++ rest, offset + first.length⟩ = _
  rw [hnext, List.length_append, Nat.add_assoc]

theorem bind_nil (h : reader.Reads bytes a) (hnext : (next a).Reads [] b) :
    (reader >>= next).Reads bytes b := by
  rw [← List.append_nil bytes]
  exact h.bind hnext

theorem bind_pure (f : α → β) (h : reader.Reads bytes a) :
    (reader >>= fun a => Pure.pure (f a)).Reads bytes (f a) :=
  h.bind_nil (Reads.pure (f a))

theorem map (f : α → β) (h : reader.Reads bytes a) : (f <$> reader).Reads bytes (f a) := by
  rw [map_eq_pure_bind]
  exact h.bind_pure f

/-- The bytes decide on the value. -/
theorem unique {a' : α} (h : reader.Reads bytes a) (h' : reader.Reads bytes a') : a = a' := by
  have heq := (h [] 0).symm.trans (h' [] 0)
  injection heq with heq
  exact congrArg Prod.fst heq

/-- A computation that reads nothing takes no bytes. -/
theorem lift_bind {result : Except DecodeError α} (h : result = .ok a)
    (hnext : (next a).Reads bytes b) : (lift result >>= next).Reads bytes b := by
  subst h
  exact hnext

/-- What is read takes the same bytes when the input ends behind them. -/
theorem all (h : reader.Reads bytes a) : reader.ReadsAll bytes a := by
  intro offset
  simpa using h [] offset

theorem bindAll (h : reader.Reads first a) (hnext : (next a).ReadsAll bytes b) :
    (reader >>= next).ReadsAll (first ++ bytes) b := by
  intro offset
  rw [bind_apply, h]
  show next a ⟨bytes, offset + first.length⟩ = _
  rw [hnext, List.length_append, Nat.add_assoc]

end Reads

theorem ReadsAll.lift_bind {result : Except DecodeError α} (h : result = .ok a)
    (hnext : (next a).ReadsAll bytes b) : (lift result >>= next).ReadsAll bytes b := by
  subst h
  exact hnext

/-- At the end of the input there is nothing left. -/
theorem ReadsAll.finish {next : Unit → Reader β} (hnext : (next ()).ReadsAll [] b) :
    (Reader.finish >>= next).ReadsAll [] b :=
  hnext

/-! ## Numbers -/

theorem bytes_reads (content : List UInt8) :
    (Reader.bytes content.length).Reads content content := by
  intro rest offset
  unfold Reader.bytes
  simp

theorem number_u2 (n : Nat) : number (Writer.u2 n) = n % 65536 := by
  simp only [number, Writer.u2, List.foldl_cons, List.foldl_nil, UInt8.toNat_ofNat']
  omega

theorem number_u4 (n : Nat) : number (Writer.u4 n) = n % 4294967296 := by
  simp only [number, Writer.u4, List.foldl_cons, List.foldl_nil, UInt8.toNat_ofNat']
  omega

/-- Digits beyond the second byte are lost. -/
theorem u2_reads_mod (n : Nat) : Reader.u2.Reads (Writer.u2 n) (n % 65536) := by
  rw [← number_u2]
  exact (bytes_reads (Writer.u2 n)).map number

theorem u2_reads {n : Nat} (h : n < 65536) : Reader.u2.Reads (Writer.u2 n) n := by
  have hreads := u2_reads_mod n
  rwa [Nat.mod_eq_of_lt h] at hreads

theorem u4_reads {n : Nat} (h : n < 4294967296) : Reader.u4.Reads (Writer.u4 n) n := by
  have hreads := (bytes_reads (Writer.u4 n)).map number
  rwa [number_u4, Nat.mod_eq_of_lt h] at hreads

theorem u1_reads (byte : UInt8) : Reader.u1.Reads [byte] byte.toNat := by
  have hreads := (bytes_reads [byte]).map number
  have hnumber : number [byte] = byte.toNat := by simp [number]
  rwa [hnumber] at hreads

theorem u2_pair_reads_mod (make : Nat → Nat → α) (m n : Nat) :
    Reads (do return make (← Reader.u2) (← Reader.u2)) (Writer.u2 m ++ Writer.u2 n)
      (make (m % 65536) (n % 65536)) :=
  (u2_reads_mod m).bind ((u2_reads_mod n).bind_pure (make (m % 65536)))

/-- Flags of sixteen bits are read as they are. -/
theorem u2_reads_flags (flags : UInt16) : Reader.u2.Reads (Writer.u2 flags.toNat) flags.toNat :=
  u2_reads flags.toNat_lt

/-! ## Lists -/

/-- Items one behind the other. -/
theorem times_reads {chunks : List (List UInt8)} {values : List α}
    (h : List.Forall₂ reader.Reads chunks values) :
    (times reader values.length).Reads chunks.flatten values := by
  induction h with
  | nil => exact Reads.pure []
  | @cons chunk value chunks values hfirst _ ih =>
    have hrest : Reads (do
        let rest ← times reader values.length
        return value :: rest) chunks.flatten (value :: values) :=
      ih.bind_pure (value :: ·)
    exact hfirst.bind hrest

theorem counted_reads {chunks : List (List UInt8)} {values : List α}
    (hlength : values.length < 65536) (h : List.Forall₂ reader.Reads chunks values) :
    (counted reader).Reads (Writer.u2 values.length ++ chunks.flatten) values :=
  (u2_reads hlength).bind (times_reads h)

end Rebuild.Artifact.Reader
