import Mathlib
import Rebuild.Text.ModifiedUtf8

/-! UTF-8 read back. Main statements: the decoder finds the characters that were encoded, and so
does the decoder of constant pools where there is no NUL. -/
namespace Rebuild.Text

namespace Utf8

theorem toNat_ofNat {n : Nat} (h : n < 256) : (UInt8.ofNat n).toNat = n :=
  UInt8.toNat_ofNat_of_lt' h

theorem ofNat_eq_iff {n m : Nat} (hn : n < 256) (hm : m < 256) :
    UInt8.ofNat n = UInt8.ofNat m ↔ n = m := by
  rw [← UInt8.toNat_inj, toNat_ofNat hn, toNat_ofNat hm]

/-- Scalar values leave out the surrogates. -/
theorem toNat_cases (c : Char) : c.toNat < 0xD800 ∨ 0xDFFF < c.toNat ∧ c.toNat < 0x110000 :=
  c.valid

theorem leadLength_ofNat {n : Nat} (h : n < 256) : leadLength (UInt8.ofNat n) =
    if n < 0x80 then 1
    else if n < 0xC2 then 0
    else if n < 0xE0 then 2
    else if n < 0xF0 then 3
    else if n < 0xF5 then 4
    else 0 := by
  rw [leadLength, toNat_ofNat h]

theorem isContinuation_ofNat (n : Nat) : isContinuation (UInt8.ofNat (0x80 + n % 64)) := by
  have hn : n % 64 < 64 := Nat.mod_lt n (by decide)
  unfold isContinuation
  rw [toNat_ofNat (by omega)]
  simp only [Bool.and_eq_true, decide_eq_true_eq]
  omega

/-- Which second bytes go with a lead byte, told of numbers. -/
theorem isSecond_ofNat {lead n : Nat} (hlead : lead < 256) (hn : n < 64)
    (hlow : lead = 0xE0 → 32 ≤ n) (hlow' : lead = 0xF0 → 16 ≤ n)
    (hhigh : lead = 0xED → n < 32) (hhigh' : lead = 0xF4 → n < 16) :
    isSecond (UInt8.ofNat lead) (UInt8.ofNat (0x80 + n)) := by
  have heq (m : Nat) (hm : m < 256) : UInt8.ofNat lead = UInt8.ofNat m ↔ lead = m :=
    ofNat_eq_iff hlead hm
  unfold isSecond
  rw [toNat_ofNat (by omega)]
  simp only [show (0xE0 : UInt8) = UInt8.ofNat 0xE0 from rfl,
    show (0xF0 : UInt8) = UInt8.ofNat 0xF0 from rfl,
    show (0xED : UInt8) = UInt8.ofNat 0xED from rfl,
    show (0xF4 : UInt8) = UInt8.ofNat 0xF4 from rfl, heq 0xE0 (by decide), heq 0xF0 (by decide),
    heq 0xED (by decide), heq 0xF4 (by decide), Bool.and_eq_true, decide_eq_true_eq]
  split_ifs <;> omega

/-- The bytes of a character are read as this character, whatever follows. -/
theorem exists_encodeChar_front (c : Char) : ∃ lead more, encodeChar c = lead :: more ∧
    ∀ rest, front lead (more ++ rest) = .scalar c more.length := by
  have hcases := toNat_cases c
  have hchar : char c.toNat = c := Char.ofNat_toNat c
  unfold encodeChar
  simp only
  split_ifs with hone htwo hthree
  · refine ⟨_, _, rfl, fun rest => ?_⟩
    have hlead : leadLength (UInt8.ofNat c.toNat) = 1 := by
      rw [leadLength_ofNat (by omega), if_pos hone]
    simp only [front, hlead, toNat_ofNat (show c.toNat < 256 by omega), hchar]
    rfl
  · refine ⟨_, _, rfl, fun rest => ?_⟩
    have hquot : c.toNat / 64 < 32 := by omega
    have hlead : leadLength (UInt8.ofNat (0xC0 + c.toNat / 64)) = 2 := by
      rw [leadLength_ofNat (by omega)]
      split_ifs <;> omega
    have hsecond : isSecond (UInt8.ofNat (0xC0 + c.toNat / 64))
        (UInt8.ofNat (0x80 + c.toNat % 64)) :=
      isSecond_ofNat (by omega) (by omega) (by omega) (by omega) (by omega) (by omega)
    have hvalue : (0xC0 + c.toNat / 64) % 32 * 64 + (0x80 + c.toNat % 64) % 64 = c.toNat := by omega
    simp only [front, hlead, List.cons_append, hsecond, ↓reduceIte,
      toNat_ofNat (show 0xC0 + c.toNat / 64 < 256 by omega),
      toNat_ofNat (show 0x80 + c.toNat % 64 < 256 by omega), hvalue, hchar]
    rfl
  · refine ⟨_, _, rfl, fun rest => ?_⟩
    have hlead : leadLength (UInt8.ofNat (0xE0 + c.toNat / 4096)) = 3 := by
      rw [leadLength_ofNat (by omega)]
      split_ifs <;> omega
    have hsecond : isSecond (UInt8.ofNat (0xE0 + c.toNat / 4096))
        (UInt8.ofNat (0x80 + c.toNat / 64 % 64)) :=
      isSecond_ofNat (by omega) (by omega) (by omega) (by omega) (by omega) (by omega)
    have hvalue : (0xE0 + c.toNat / 4096) % 16 * 4096 + (0x80 + c.toNat / 64 % 64) % 64 * 64 +
        (0x80 + c.toNat % 64) % 64 = c.toNat := by omega
    simp only [front, hlead, List.cons_append, hsecond, isContinuation_ofNat, ↓reduceIte,
      toNat_ofNat (show 0xE0 + c.toNat / 4096 < 256 by omega),
      toNat_ofNat (show 0x80 + c.toNat / 64 % 64 < 256 by omega),
      toNat_ofNat (show 0x80 + c.toNat % 64 < 256 by omega), hvalue, hchar]
    rfl
  · refine ⟨_, _, rfl, fun rest => ?_⟩
    have hlead : leadLength (UInt8.ofNat (0xF0 + c.toNat / 262144)) = 4 := by
      rw [leadLength_ofNat (by omega)]
      split_ifs <;> omega
    have hsecond : isSecond (UInt8.ofNat (0xF0 + c.toNat / 262144))
        (UInt8.ofNat (0x80 + c.toNat / 4096 % 64)) :=
      isSecond_ofNat (by omega) (by omega) (by omega) (by omega) (by omega) (by omega)
    have hvalue : (0xF0 + c.toNat / 262144) % 8 * 262144 +
        (0x80 + c.toNat / 4096 % 64) % 64 * 4096 + (0x80 + c.toNat / 64 % 64) % 64 * 64 +
        (0x80 + c.toNat % 64) % 64 = c.toNat := by omega
    simp only [front, hlead, List.cons_append, hsecond, isContinuation_ofNat, ↓reduceIte,
      toNat_ofNat (show 0xF0 + c.toNat / 262144 < 256 by omega),
      toNat_ofNat (show 0x80 + c.toNat / 4096 % 64 < 256 by omega),
      toNat_ofNat (show 0x80 + c.toNat / 64 % 64 < 256 by omega),
      toNat_ofNat (show 0x80 + c.toNat % 64 < 256 by omega), hvalue, hchar]
    rfl

theorem decodeFrom_skip (more rest : List UInt8) :
    decodeFrom more.length (more ++ rest) = decodeFrom 0 rest := by
  induction more with
  | nil => rfl
  | cons b more ih => exact ih

theorem decodeFrom_encodeChar (c : Char) (rest : List UInt8) :
    decodeFrom 0 (encodeChar c ++ rest) = (decodeFrom 0 rest).map (c :: ·) := by
  obtain ⟨lead, more, hbytes, hfront⟩ := exists_encodeChar_front c
  rw [hbytes, List.cons_append]
  simp only [decodeFrom, hfront rest, decodeFrom_skip]

/-- Decoding undoes encoding. -/
theorem decodeChars?_encodeChars (cs : List Char) : decodeChars? (encodeChars cs) = some cs := by
  show decodeFrom 0 (encodeChars cs) = some cs
  induction cs with
  | nil => rfl
  | cons c cs ih =>
    show decodeFrom 0 (encodeChar c ++ encodeChars cs) = _
    rw [decodeFrom_encodeChar, ih]
    rfl

end Utf8

/-- A constant pool may hold text without NUL as plain UTF-8. -/
theorem ModifiedUtf8.decode?_utf8 {s : String} (h : '\x00' ∉ s.toList) :
    ModifiedUtf8.decode? (Utf8.encode s) = some s := by
  unfold ModifiedUtf8.decode? Utf8.encode
  simp only [Utf8.decodeChars?_encodeChars, h, ↓reduceIte, String.ofList_toList]

end Rebuild.Text
