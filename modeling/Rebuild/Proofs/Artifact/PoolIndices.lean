import Mathlib
import Rebuild.Proofs.Artifact.Pools
import Rebuild.Proofs.Artifact.References
import Rebuild.Proofs.Text.ModifiedUtf8

/-! Pool indices of sixteen bits. A pool may announce 65535 places, and a number of eight bytes in
the last of them adds one more, so counting reaches the end of what sixteen bits hold. Main
statement: reading a pool with indices of sixteen bits never overflows and ends, with the same
entries as without a bound, and each of these entries is found at an index of sixteen bits. -/
namespace Rebuild.Artifact

/-! ## What readers yield -/

namespace Reader

variable {α β : Type} {reader : Reader α} {next next' : α → Reader β} {P : α → Prop} {Q : β → Prop}

/-- Whatever a reader yields is such a value. -/
def Yields (reader : Reader α) (P : α → Prop) : Prop :=
  ∀ cursor a left, reader cursor = .ok (a, left) → P a

namespace Yields

theorem trivial : reader.Yields fun _ => True := fun _ _ _ _ => True.intro

theorem pure {a : α} (h : P a) : Yields (Pure.pure a) P := by
  rintro cursor _ _ ⟨⟩
  exact h

theorem bind (h : reader.Yields P) (hnext : ∀ a, P a → (next a).Yields Q) :
    (reader >>= next).Yields Q := by
  intro cursor b left hread
  cases hfirst : reader cursor with
  | error e =>
    rw [bind_apply, hfirst] at hread
    cases hread
  | ok r =>
    rw [bind_apply, hfirst] at hread
    exact hnext r.1 (h cursor r.1 r.2 hfirst) r.2 b left hread

/-- Only what a reader yields is passed on. -/
theorem bind_congr (h : reader.Yields P) (hnext : ∀ a, P a → next a = next' a) :
    reader >>= next = reader >>= next' := by
  funext cursor
  rw [bind_apply, bind_apply]
  cases hfirst : reader cursor with
  | error e => rfl
  | ok r => exact congrFun (hnext r.1 (h cursor r.1 r.2 hfirst)) r.2

end Yields

theorem number_lt (bytes : List UInt8) : number bytes < 256 ^ bytes.length := by
  induction bytes using List.reverseRecOn with
  | nil => decide
  | append_singleton bytes byte ih =>
    have hnumber : number (bytes ++ [byte]) = number bytes * 256 + byte.toNat := by
      simp [number]
    have hbyte := byte.toNat_lt
    rw [hnumber, List.length_append, List.length_singleton, pow_succ]
    omega

theorem u2_yields : u2.Yields (· < 65536) := by
  intro cursor n left hread
  change (Reader.bytes 2 cursor).bind _ = _ at hread
  unfold Reader.bytes at hread
  split at hread
  · next hlength =>
    cases hread
    have hlt := number_lt (cursor.rest.take 2)
    rwa [List.length_take_of_le hlength] at hlt
  · cases hread

end Reader

open Reader Writer

/-! ## Counting with sixteen bits -/

namespace ConstantPool

/-- The next index, if sixteen bits hold it. -/
def checkedSucc (index : UInt16) : Option UInt16 :=
  if index.toNat + 1 < 65536 then some (index + 1) else none

/-- The next index, where the last one is followed by itself. -/
def saturatingSucc (index : UInt16) : UInt16 := (checkedSucc index).getD index

/-- How going through the places of a pool may end. -/
inductive Ending where
  | done (entries : List Constant)
  /-- An index went beyond sixteen bits. -/
  | overflowed
  /-- There are places left after the rounds allowed. -/
  | unfinished

/-- Goes through the places from `index` on, before `count`, in so many rounds at most. The step
behind an entry must not overflow; the step behind the second place of a number saturates. -/
def scan (count : UInt16) : (rounds : Nat) → (index : UInt16) → List Constant → Reader Ending
  | 0, index, entries => return if index < count then .unfinished else .done entries
  | rounds + 1, index, entries =>
    if index < count then do
      let entry ← Constant.read index.toNat
      match checkedSucc index with
      | none => return .overflowed
      | some next =>
        if entry.isWide then
          scan count rounds (saturatingSucc next) (entries ++ [entry, .unusable])
        else scan count rounds next (entries ++ [entry])
    else return .done entries

/-- Reads a pool with indices of sixteen bits. -/
def scanAll : Reader Ending := do
  let count ← Reader.u2
  scan (UInt16.ofNat count) 65534 1 [.unusable]

theorem checkedSucc_of_lt {count index : UInt16} (h : index < count) :
    checkedSucc index = some (index + 1) ∧ (index + 1).toNat = index.toNat + 1 := by
  have hlt : index.toNat < count.toNat := h
  have hcount := count.toNat_lt
  refine ⟨if_pos (by omega), ?_⟩
  rw [UInt16.toNat_add, UInt16.toNat_one]
  omega

/-- The places left behind a saturating step. -/
theorem sub_saturatingSucc (count index : UInt16) :
    count.toNat - (saturatingSucc index).toNat = count.toNat - index.toNat - 1 := by
  have hcount := count.toNat_lt
  unfold saturatingSucc checkedSucc
  split
  · rw [Option.getD_some, UInt16.toNat_add, UInt16.toNat_one]
    omega
  · rw [Option.getD_none]
    omega

theorem readPlaces_afterWide (count left : Nat) :
    readPlaces count left true = (.unusable :: ·) <$> readPlaces count (left - 1) false := by
  cases left with
  | zero => rfl
  | succ left => rw [readPlaces, map_eq_pure_bind]; rfl

theorem scan_eq (count : UInt16) {rounds : Nat} (index : UInt16) (entries : List Constant)
    (h : count.toNat - index.toNat ≤ rounds) : scan count rounds index entries =
      (fun rest => .done (entries ++ rest)) <$>
        readPlaces count.toNat (count.toNat - index.toNat) false := by
  induction rounds generalizing index entries with
  | zero =>
    have hend : ¬ index < count := by
      intro hlt
      have : index.toNat < count.toNat := hlt
      omega
    rw [scan, if_neg hend, Nat.le_zero.1 h, readPlaces, map_pure, List.append_nil]
  | succ rounds ih =>
    by_cases hlt : index < count
    · have hlt' : index.toNat < count.toNat := hlt
      obtain ⟨hnext, hsucc⟩ := checkedSucc_of_lt hlt
      have hleft : count.toNat - index.toNat = count.toNat - (index + 1).toNat + 1 := by omega
      have hindex : count.toNat - (count.toNat - index.toNat) = index.toNat := by omega
      rw [scan, if_pos hlt, hleft, readPlaces, ← hleft, hindex, map_bind]
      refine bind_congr fun entry => ?_
      simp only [hnext]
      -- Behind a number its second place is skipped as well. Where that one lies behind the last
      -- place, the step saturates at worst, and nothing is left either way.
      split
      next hwide =>
        rw [ih _ _ (by rw [sub_saturatingSucc]; omega), sub_saturatingSucc, hwide,
          readPlaces_afterWide]
        simp
      next hnarrow =>
        rw [ih _ _ (by omega), Bool.eq_false_iff.2 hnarrow]
        simp
    · have hend : count.toNat - index.toNat = 0 := Nat.sub_eq_zero_of_le (not_lt.1 hlt)
      rw [scan, if_neg hlt, hend, readPlaces, map_pure, List.append_nil]

/-- Sixteen bits are enough, and the rounds allowed are. -/
theorem scanAll_eq : scanAll = (fun pool => .done pool.entries) <$> ConstantPool.read := by
  unfold scanAll ConstantPool.read
  rw [map_bind]
  refine u2_yields.bind_congr fun count hcount => ?_
  have hofNat : (UInt16.ofNat count).toNat = count := UInt16.toNat_ofNat_of_lt' hcount
  rw [scan_eq, hofNat]
  · simp
  · rw [hofNat]
    simp
    omega

/-! ## Places -/

/-- Places as they are read one behind the other, the first of them perhaps behind a number that
takes two: that one is unusable. -/
inductive Spaced : (afterWide : Bool) → List Constant → Prop
  | nil : Spaced false []
  | second {rest : List Constant} (h : Spaced false rest) : Spaced true (.unusable :: rest)
  | entry {rest : List Constant} (constant : Constant) (h : Spaced constant.isWide rest) :
    Spaced false (constant :: rest)

theorem readPlaces_yields (count left : Nat) (afterWide : Bool) :
    (readPlaces count left afterWide).Yields fun entries =>
      Spaced afterWide entries ∧ entries.length ≤ left + 1 := by
  induction left generalizing afterWide with
  | zero =>
    cases afterWide with
    | false => exact .pure ⟨.nil, by simp⟩
    | true => exact .pure ⟨.second .nil, by simp⟩
  | succ left ih =>
    cases afterWide with
    | false =>
      have hentry : (Constant.read (count - (left + 1))).Yields fun _ => True := .trivial
      refine hentry.bind fun entry _ => ?_
      refine (ih entry.isWide).bind ?_
      rintro rest ⟨hspaced, hlength⟩
      exact .pure ⟨.entry entry hspaced, Nat.succ_le_succ hlength⟩
    | true =>
      refine (ih false).bind ?_
      rintro rest ⟨hspaced, hlength⟩
      exact .pure ⟨.second hspaced, Nat.succ_le_succ hlength⟩

theorem read_yields : ConstantPool.read.Yields fun pool =>
    Spaced false pool.entries ∧ pool.size ≤ 65536 := by
  refine u2_yields.bind fun count hcount => ?_
  refine (readPlaces_yields count (count - 1) false).bind ?_
  rintro entries ⟨hspaced, hlength⟩
  refine .pure ⟨.entry .unusable hspaced, ?_⟩
  show entries.length + 1 ≤ 65536
  omega

namespace Spaced

variable {entries : List Constant} {afterWide : Bool} {index : Nat} {constant : Constant}

theorem head? (h : Spaced true entries) : entries[0]? = some .unusable := by
  cases h
  rfl

theorem behind (h : Spaced afterWide entries) (hentry : entries[index]? = some constant)
    (hwide : constant.isWide) : entries[index + 1]? = some .unusable := by
  induction h generalizing index with
  | nil => cases hentry
  | second _ ih =>
    cases index with
    | zero =>
      cases hentry
      cases hwide
    | succ index => exact ih hentry
  | entry first hrest ih =>
    cases index with
    | zero =>
      cases hentry
      rw [hwide] at hrest
      exact hrest.head?
    | succ index => exact ih hentry

end Spaced

/-! ## Whole pools -/

variable {pool : ConstantPool} {index : Nat}

theorem lt_size_of_get_eq_ok {entry : Constant} (h : pool.get index = .ok entry) :
    index < pool.size :=
  (List.getElem?_eq_some_iff.1 (get_eq_ok.1 h).1).1

theorem get_eq_error (h : ∀ entry, pool.get index ≠ .ok entry) :
    pool.get index = .error (.invalidPoolIndex index) := by
  cases hget : pool.get index with
  | ok entry => exact absurd hget (h entry)
  | error e =>
    unfold get at hget
    split at hget <;> cases hget
    all_goals rfl

/-- The entries that can be used, in order, with their indices cut to sixteen bits. -/
def narrowed (pool : ConstantPool) : List (UInt16 × Constant) :=
  pool.toList.map (Prod.map UInt16.ofNat id)

/-- A pool whose places sixteen bits tell apart. -/
structure Addressed (pool : ConstantPool) : Prop where
  size_le : pool.size ≤ 65536
  behind_wide : ∀ index entry, pool.entries[index]? = some entry → entry.isWide →
    pool.entries[index + 1]? = some .unusable
  untruncated : pool.narrowed.map (Prod.map UInt16.toNat id) = pool.toList
  get_ok : ∀ index entry, (index, entry) ∈ pool.narrowed → pool.get index.toNat = .ok entry
  get_error : ∀ index, (∀ entry, (index, entry) ∉ pool.narrowed) →
    pool.get index.toNat = .error (.invalidPoolIndex index.toNat)

/-- Cutting indices to sixteen bits changes none of them. -/
theorem toNat_ofNat_of_mem_toList (hsize : pool.size ≤ 65536) {entry : Constant}
    (h : (index, entry) ∈ pool.toList) : (UInt16.ofNat index).toNat = index :=
  UInt16.toNat_ofNat_of_lt' ((lt_size_of_get_eq_ok (mem_toList.1 h)).trans_le hsize)

theorem mem_narrowed (hsize : pool.size ≤ 65536) {index : UInt16} {entry : Constant} :
    (index, entry) ∈ pool.narrowed ↔ pool.get index.toNat = .ok entry := by
  rw [← mem_toList, narrowed, List.mem_map]
  constructor
  · rintro ⟨⟨place, _⟩, hmem, heq⟩
    cases heq
    rw [toNat_ofNat_of_mem_toList hsize hmem]
    exact hmem
  · intro hmem
    exact ⟨_, hmem, by simp⟩

theorem Addressed.of_spaced (hspaced : Spaced false pool.entries) (hsize : pool.size ≤ 65536) :
    pool.Addressed where
  size_le := hsize
  behind_wide _ _ := hspaced.behind
  untruncated := by
    rw [narrowed, List.map_map]
    refine (List.map_congr_left ?_).trans (List.map_id _)
    rintro ⟨index, entry⟩ hmem
    exact Prod.ext (toNat_ofNat_of_mem_toList hsize hmem) rfl
  get_ok _ _ := (mem_narrowed hsize).1
  get_error index h := get_eq_error fun entry hget => h entry ((mem_narrowed hsize).2 hget)

/-- Reading a pool stays within sixteen bits on every byte string: its indices never overflow and
the places come to an end, with the entries, or the failure, of a reader without such bounds; what
texts are put together from fits as well. The pool that is read has no more places than there are
indices, so that each entry is found at its own and nothing at any other. -/
theorem indices_fit (bytes : List UInt8) (offset : Nat) :
    scanAll ⟨bytes, offset⟩ =
      (ConstantPool.read ⟨bytes, offset⟩).map (Prod.map (fun pool => .done pool.entries) id) ∧
    (∀ text units, Text.ModifiedUtf8.decodeUnits text = some units → ∀ u ∈ units, u < 65536) ∧
    ∀ pool left, ConstantPool.read ⟨bytes, offset⟩ = .ok (pool, left) → pool.Addressed := by
  refine ⟨?_, fun text units => Text.ModifiedUtf8.lt_of_mem_decodeUnits, ?_⟩
  · rw [scanAll_eq]
    rfl
  · intro pool left hread
    obtain ⟨hspaced, hsize⟩ := read_yields _ _ _ hread
    exact .of_spaced hspaced hsize

/-- An artifact's pool of empty texts with an eight-byte number in the last place announced. -/
def crowdedBytes (texts : Nat) : List UInt8 :=
  Writer.u2 (texts + 2) ++ (((List.replicate texts (⟨1, Writer.u2 0⟩ : PoolEntry)).flatMap
    fun e => e.tag :: e.payload) ++ 5 :: (Writer.u4 0 ++ Writer.u4 0))

/-- What is read from it: one place more than announced. -/
def crowded (texts : Nat) : ConstantPool :=
  ⟨.unusable :: (List.replicate texts (.utf8 "") ++ [.long 0, .unusable])⟩

theorem size_crowded (texts : Nat) : (crowded texts).size = texts + 3 := by
  simp [crowded, size]

theorem last_crowded (texts : Nat) : (crowded texts).entries[texts + 1]? = some (.long 0) ∧
    (crowded texts).entries[texts + 2]? = some .unusable := by
  simp [crowded]

theorem read_long_reads (index : Nat) :
    (Constant.read index).Reads (5 :: (Writer.u4 0 ++ Writer.u4 0)) (.long 0) := by
  have hzero : Reader.u4.Reads (Writer.u4 0) 0 := u4_reads (by decide)
  have hvalue : Reader.u8.Reads (Writer.u4 0 ++ Writer.u4 0) 0 := hzero.bind (hzero.bind_pure _)
  apply (u1_reads 5).bind
  exact hvalue.bind_pure fun n => Constant.long (UInt64.ofNat n).toInt64

theorem read_crowdedBytes {texts : Nat} (h : texts + 2 < 65536) :
    ConstantPool.read.Reads (crowdedBytes texts) (crowded texts) := by
  have hstorable : Storable "" := by decide
  have hentry : PoolEntry.Denotes ⟨1, Writer.u2 0⟩ (.utf8 "") := .utf8 hstorable
  have hentries : List.Forall₂ PoolEntry.Denotes (List.replicate texts ⟨1, Writer.u2 0⟩)
      (List.replicate texts (.utf8 "")) := by
    refine List.forall₂_iff_zip.2 ⟨by simp, fun hmem => ?_⟩
    rw [List.zip_replicate', List.mem_replicate] at hmem
    cases hmem.2
    exact hentry
  have hlast : (readPlaces (texts + 2) 1 false).Reads (5 :: (Writer.u4 0 ++ Writer.u4 0))
      [.long 0, .unusable] :=
    (read_long_reads _).bind_nil ((Reads.pure [Constant.unusable]).bind_pure (Constant.long 0 :: ·))
  have hall := readPlaces_reads_append (texts + 2) hentries hlast
  rw [List.length_replicate] at hall
  exact (u2_reads h).bind (hall.bind_pure fun entries => ConstantPool.mk (.unusable :: entries))

/-- A pool of 65535 places that ends in a number fills all indices of sixteen bits, the last of
them with the number's second place. -/
theorem crowded_addressed :
    ConstantPool.read ⟨crowdedBytes 65533, 0⟩ =
      .ok (crowded 65533, ⟨[], 0 + (crowdedBytes 65533).length⟩) ∧
    scanAll ⟨crowdedBytes 65533, 0⟩ =
      .ok (.done (crowded 65533).entries, ⟨[], 0 + (crowdedBytes 65533).length⟩) ∧
    (crowded 65533).size = 65536 ∧ (crowded 65533).entries[65534]? = some (.long 0) ∧
    (crowded 65533).get 65535 = .error (.invalidPoolIndex 65535) ∧ (crowded 65533).Addressed := by
  have htexts : 65533 + 2 < 65536 := by decide
  have hread := (read_crowdedBytes htexts).all 0
  obtain ⟨hscan, -, hpool⟩ := indices_fit (crowdedBytes 65533) 0
  have hlong : (crowded 65533).entries[65534]? = some (.long 0) := (last_crowded 65533).1
  have hsecond : (crowded 65533).entries[65535]? = some .unusable := (last_crowded 65533).2
  refine ⟨hread, by rw [hscan, hread]; rfl, size_crowded _, hlong, ?_, hpool _ _ hread⟩
  rw [ConstantPool.get, hsecond]

end ConstantPool

end Rebuild.Artifact
