import Mathlib
import Rebuild.Proofs.Text.Utf8

/-! The text encoding of constant pools read back. Plain UTF-8 and UTF-16 units have forms in
common, and a text in these forms is the same in both readings. Main statement: every text is read
back from its units, every text without NUL from plain UTF-8 too, and where both readings succeed
they agree. -/
namespace Rebuild.Text.ModifiedUtf8

open Utf8

variable {bytes rest : List UInt8} {units : List Nat} {cs : List Char}

/-! ## Units -/

theorem decodeUnits_one {a : UInt8} (ha : a.toNat < 0x80) (hzero : a ≠ 0) (rest : List UInt8) :
    decodeUnits (a :: rest) = (decodeUnits rest).map (a.toNat :: ·) := by
  rw [decodeUnits.eq_def]
  simp only [ha, ↓reduceIte, hzero]

theorem decodeUnits_two {a b : UInt8} (ha : 0xC0 ≤ a.toNat) (ha' : a.toNat < 0xE0)
    (hb : isContinuation b) (rest : List UInt8) : decodeUnits (a :: b :: rest) =
      (decodeUnits rest).map ((a.toNat % 32 * 64 + b.toNat % 64) :: ·) := by
  have hlarge : ¬ a.toNat < 0x80 := by omega
  rw [decodeUnits.eq_def]
  simp only [hlarge, ↓reduceIte, ha, ha', and_self, hb]

theorem decodeUnits_three {a b c : UInt8} (ha : 0xE0 ≤ a.toNat) (ha' : a.toNat < 0xF0)
    (hb : isContinuation b) (hc : isContinuation c) (rest : List UInt8) :
    decodeUnits (a :: b :: c :: rest) = (decodeUnits rest).map
      ((a.toNat % 16 * 4096 + b.toNat % 64 * 64 + c.toNat % 64) :: ·) := by
  have hlarge : ¬ a.toNat < 0x80 := by omega
  have hother : ¬ (0xC0 ≤ a.toNat ∧ a.toNat < 0xE0) := by omega
  rw [decodeUnits.eq_def]
  simp only [hlarge, hother, ↓reduceIte, ha, ha', and_self, hb, hc, Bool.and_self]

/-- The bytes of a unit are read as this unit, whatever follows. -/
theorem decodeUnits_encodeUnit {u : Nat} (hu : u < 65536) (rest : List UInt8) :
    decodeUnits (encodeUnit u ++ rest) = (decodeUnits rest).map (u :: ·) := by
  unfold encodeUnit
  split_ifs with hone htwo
  · have hlead : (UInt8.ofNat u).toNat = u := toNat_ofNat (by omega)
    have hzero : UInt8.ofNat u ≠ 0 := (ofNat_eq_iff (m := 0) (by omega) (by decide)).not.2 hone.1
    rw [List.singleton_append, decodeUnits_one (by omega) hzero, hlead]
  · have hlead : (UInt8.ofNat (0xC0 + u / 64)).toNat = 0xC0 + u / 64 := toNat_ofNat (by omega)
    have hlast : (UInt8.ofNat (0x80 + u % 64)).toNat = 0x80 + u % 64 := toNat_ofNat (by omega)
    have hvalue : (0xC0 + u / 64) % 32 * 64 + (0x80 + u % 64) % 64 = u := by omega
    rw [List.cons_append, List.singleton_append,
      decodeUnits_two (by omega) (by omega) (isContinuation_ofNat u), hlead, hlast, hvalue]
  · have hlead : (UInt8.ofNat (0xE0 + u / 4096)).toNat = 0xE0 + u / 4096 := toNat_ofNat (by omega)
    have hsecond : (UInt8.ofNat (0x80 + u / 64 % 64)).toNat = 0x80 + u / 64 % 64 :=
      toNat_ofNat (by omega)
    have hlast : (UInt8.ofNat (0x80 + u % 64)).toNat = 0x80 + u % 64 := toNat_ofNat (by omega)
    have hvalue : (0xE0 + u / 4096) % 16 * 4096 + (0x80 + u / 64 % 64) % 64 * 64 +
        (0x80 + u % 64) % 64 = u := by omega
    rw [List.cons_append, List.cons_append, List.singleton_append,
      decodeUnits_three (by omega) (by omega) (isContinuation_ofNat (u / 64))
        (isContinuation_ofNat u), hlead, hsecond, hlast, hvalue]

theorem decodeUnits_flatMap (h : ∀ u ∈ units, u < 65536) :
    decodeUnits (units.flatMap encodeUnit) = some units := by
  induction units with
  | nil => rfl
  | cons u units ih =>
    rw [List.flatMap_cons, decodeUnits_encodeUnit (h u List.mem_cons_self),
      ih fun v hv => h v (List.mem_cons_of_mem u hv)]
    rfl

theorem lt_of_mem_unitsOfChars {u : Nat} (h : u ∈ unitsOfChars cs) : u < 65536 := by
  obtain ⟨c, -, hu⟩ := List.mem_flatMap.1 h
  have hcases := toNat_cases c
  unfold unitsOfChar at hu
  dsimp only at hu
  split_ifs at hu with hbasic
  · rw [List.mem_singleton] at hu
    omega
  · simp only [List.mem_cons, List.not_mem_nil, or_false] at hu
    omega

/-- What is put together from the bytes of a unit fits in sixteen bits. -/
theorem lt_of_mem_decodeUnits (h : decodeUnits bytes = some units) : ∀ u ∈ units, u < 65536 := by
  fun_induction decodeUnits bytes generalizing units with
  | case1 =>
    cases h
    simp
  | case3 a rest ha _ ih =>
    obtain ⟨others, hothers, rfl⟩ := Option.map_eq_some_iff.1 h
    exact List.forall_mem_cons.2 ⟨by omega, ih hothers⟩
  | case4 a _ _ b rest _ ih | case7 a _ _ _ b c rest _ ih =>
    obtain ⟨others, hothers, rfl⟩ := Option.map_eq_some_iff.1 h
    exact List.forall_mem_cons.2 ⟨by omega, ih hothers⟩
  | _ => cases h

/-- A unit that is no surrogate is a character of its own. -/
theorem charsOfUnits_cons {u : Nat} (h : u < 0xD800 ∨ 0xDFFF < u) (units : List Nat) :
    charsOfUnits (u :: units) = (charsOfUnits units).map (Char.ofNat u :: ·) := by
  rw [charsOfUnits.eq_def]
  simp only
  rw [if_neg (by omega), if_neg (by omega)]

theorem charsOfUnits_unitsOfChar (c : Char) (units : List Nat) :
    charsOfUnits (unitsOfChar c ++ units) = (charsOfUnits units).map (c :: ·) := by
  have hcases := toNat_cases c
  unfold unitsOfChar
  dsimp only
  split_ifs with hbasic
  · rw [List.singleton_append, charsOfUnits_cons (by omega), Char.ofNat_toNat]
  · have hvalue : 0x10000 + (0xD800 + (c.toNat - 0x10000) / 1024 - 0xD800) * 1024 +
        (0xDC00 + (c.toNat - 0x10000) % 1024 - 0xDC00) = c.toNat := by omega
    rw [List.cons_append, List.singleton_append, charsOfUnits.eq_def]
    simp only
    rw [if_pos (by omega), if_pos (by omega), hvalue, Char.ofNat_toNat]

theorem charsOfUnits_unitsOfChars (cs : List Char) : charsOfUnits (unitsOfChars cs) = some cs := by
  induction cs with
  | nil => rfl
  | cons c cs ih =>
    show charsOfUnits (unitsOfChar c ++ unitsOfChars cs) = _
    rw [charsOfUnits_unitsOfChar, ih]
    rfl

/-- Reading by units undoes the encoding. -/
theorem decodeByUnits_encode (s : String) : decodeByUnits (encode s) = some s.toList := by
  unfold decodeByUnits encode
  rw [decodeUnits_flatMap fun u => lt_of_mem_unitsOfChars]
  exact charsOfUnits_unitsOfChars s.toList

/-! ## Two readings -/

theorem front_one {a : UInt8} (ha : a.toNat < 0x80) (rest : List UInt8) :
    front a rest = .scalar (char a.toNat) 0 := by
  have hlead : leadLength a = 1 := if_pos ha
  simp only [front, hlead]

/-- A form of two bytes stands for the same in both readings, unless it is overlong. -/
theorem front_two {a : UInt8} (ha : 0xC0 ≤ a.toNat) (ha' : a.toNat < 0xE0) (b : UInt8)
    (rest : List UInt8) :
    front a (b :: rest) = .scalar (char (a.toNat % 32 * 64 + b.toNat % 64)) 1 ∨
      ∃ more, front a (b :: rest) = .illFormed more := by
  have hlead : leadLength a = 0 ∨ leadLength a = 2 := by
    unfold leadLength
    dsimp only
    split_ifs <;> omega
  rcases hlead with hlead | hlead
  · exact .inr ⟨0, by simp only [front, hlead]⟩
  · simp only [front, hlead]
    split_ifs
    · exact .inl rfl
    · exact .inr ⟨0, rfl⟩

/-- A form of three bytes stands for the same in both readings, unless it is overlong or a
surrogate. -/
theorem front_three {a : UInt8} (ha : 0xE0 ≤ a.toNat) (ha' : a.toNat < 0xF0) (b c : UInt8)
    (rest : List UInt8) :
    let u := a.toNat % 16 * 4096 + b.toNat % 64 * 64 + c.toNat % 64
    front a (b :: c :: rest) = .scalar (char u) 2 ∧ (u < 0xD800 ∨ 0xDFFF < u) ∨
      ∃ more, front a (b :: c :: rest) = .illFormed more := by
  have hlead : leadLength a = 3 := by
    unfold leadLength
    dsimp only
    split_ifs <;> omega
  simp only [front, hlead]
  split_ifs with hsecond hthird
  · refine .inl ⟨rfl, ?_⟩
    have hed : a.toNat = 0xED → b.toNat ≤ 0x9F := by
      intro h
      obtain rfl : a = 0xED := UInt8.toNat_inj.1 h
      have hb : 0x80 ≤ b.toNat ∧ b.toNat ≤ 0x9F := by simpa [isSecond] using hsecond
      exact hb.2
    have hb : 0x80 ≤ b.toNat := by
      unfold isSecond at hsecond
      simp only [Bool.and_eq_true, decide_eq_true_eq] at hsecond
      split_ifs at hsecond <;> omega
    omega
  · exact .inr ⟨1, rfl⟩
  · exact .inr ⟨0, rfl⟩

/-- Bytes that are UTF-8 as well as units stand for the same characters. The lead byte decides on
the form in both readings: a form of four bytes is no unit, and a second byte of UTF-8 excludes
surrogates. -/
theorem charsOfUnits_of_decodeFrom (h : decodeFrom 0 bytes = some cs)
    (hunits : decodeUnits bytes = some units) : charsOfUnits units = some cs := by
  fun_induction decodeUnits bytes generalizing cs units with
  | case1 =>
    cases h
    cases hunits
    rfl
  | case3 a rest ha _ ih =>
    obtain ⟨others, hothers, rfl⟩ := Option.map_eq_some_iff.1 hunits
    simp only [decodeFrom, front_one ha] at h
    obtain ⟨more, hmore, rfl⟩ := Option.map_eq_some_iff.1 h
    rw [charsOfUnits_cons (by omega), ih hmore hothers]
    rfl
  | case4 a _ ha b rest _ ih =>
    obtain ⟨others, hothers, rfl⟩ := Option.map_eq_some_iff.1 hunits
    obtain hfront | ⟨_, hfront⟩ := front_two ha.1 ha.2 b rest
    · simp only [decodeFrom, hfront] at h
      obtain ⟨more, hmore, rfl⟩ := Option.map_eq_some_iff.1 h
      rw [charsOfUnits_cons (by omega), ih hmore hothers]
      rfl
    · simp only [decodeFrom, hfront] at h
      cases h
  | case7 a _ _ ha b c rest _ ih =>
    obtain ⟨others, hothers, rfl⟩ := Option.map_eq_some_iff.1 hunits
    obtain ⟨hfront, hplain⟩ | ⟨_, hfront⟩ := front_three ha.1 ha.2 b c rest
    · simp only [decodeFrom, hfront] at h
      obtain ⟨more, hmore, rfl⟩ := Option.map_eq_some_iff.1 h
      rw [charsOfUnits_cons hplain, ih hmore hothers]
      rfl
    · simp only [decodeFrom, hfront] at h
      cases h
  | _ => cases hunits

/-- Where both readings succeed, they find the same text. -/
theorem decodeByUnits_eq (h : decodeChars? bytes = some cs)
    (hunits : (decodeByUnits bytes).isSome) : decodeByUnits bytes = some cs := by
  obtain ⟨found, hfound⟩ := Option.isSome_iff_exists.1 hunits
  obtain ⟨units, hdecode, -⟩ := Option.bind_eq_some_iff.1 hfound
  unfold decodeByUnits
  rw [hdecode]
  exact charsOfUnits_of_decodeFrom h hdecode

/-- A text is read back, with NUL and with characters that take two units. -/
theorem decode?_encode (s : String) : decode? (encode s) = some s := by
  have hunits := decodeByUnits_encode s
  unfold decode?
  split
  · next cs hchars =>
    have hsame : decodeByUnits (encode s) = some cs := decodeByUnits_eq hchars (by simp [hunits])
    split
    · rw [hunits, Option.map_some, String.ofList_toList]
    · rw [← Option.some.inj (hunits.symm.trans hsame), String.ofList_toList]
  · rw [hunits, Option.map_some, String.ofList_toList]

/-- Texts are read back from either encoding, and the two readings never differ about one without
NUL. -/
theorem texts_read_back :
    (∀ s : String, decode? (encode s) = some s) ∧
    (∀ s : String, '\x00' ∉ s.toList → decode? (Utf8.encode s) = some s) ∧
    ∀ (bytes : List UInt8) (cs : List Char), decodeChars? bytes = some cs → '\x00' ∉ cs →
      (decodeByUnits bytes).isSome → decodeByUnits bytes = some cs :=
  ⟨decode?_encode, fun _ => decode?_utf8, fun _ _ h _ => decodeByUnits_eq h⟩

/-- NUL and a character of two units, a text for either encoding, and bytes for either reading. -/
theorem accented_texts_read_back :
    decode? (encode "a\x00😀") = some "a\x00😀" ∧
    ('\x00' ∉ "né".toList ∧ decode? (Utf8.encode "né") = some "né") ∧
    decodeChars? [0x6E, 0xC3, 0xA9] = some ['n', 'é'] ∧ '\x00' ∉ ['n', 'é'] ∧
    (decodeByUnits [0x6E, 0xC3, 0xA9]).isSome ∧
    decodeByUnits [0x6E, 0xC3, 0xA9] = some ['n', 'é'] :=
  ⟨texts_read_back.1 _, ⟨by decide, texts_read_back.2.1 _ (by decide)⟩, by decide, by decide,
    by decide, texts_read_back.2.2 _ _ (by decide) (by decide) (by decide)⟩

end Rebuild.Text.ModifiedUtf8
