/-!
Finite maps that remember the order in which their keys first came. Main statements: what a
lookup finds after a key was put or erased, and which keys there are then.
-/
namespace Rebuild

/-- A finite map as its list of entries, oldest key first. -/
structure Dict (κ : Type u) (α : Type v) where
  entries : List (κ × α) := []

namespace Dict

variable {κ : Type u} {α : Type v} [DecidableEq κ]

def empty : Dict κ α := ⟨[]⟩

instance : Inhabited (Dict κ α) := ⟨empty⟩

def keys (d : Dict κ α) : List κ := d.entries.map Prod.fst

def values (d : Dict κ α) : List α := d.entries.map Prod.snd

def size (d : Dict κ α) : Nat := d.entries.length

def isEmpty (d : Dict κ α) : Bool := d.entries.isEmpty

def find (k : κ) : List (κ × α) → Option α
  | [] => none
  | (k', a) :: rest => if k' = k then some a else find k rest

def get? (d : Dict κ α) (k : κ) : Option α := find k d.entries

def contains (d : Dict κ α) (k : κ) : Bool := (d.get? k).isSome

def putEntries (k : κ) (a : α) : List (κ × α) → List (κ × α)
  | [] => [(k, a)]
  | (k', b) :: rest => if k' = k then (k, a) :: rest else (k', b) :: putEntries k a rest

/-- A key that is there keeps its place, a new one comes last. -/
def put (d : Dict κ α) (k : κ) (a : α) : Dict κ α := ⟨putEntries k a d.entries⟩

def eraseEntries (k : κ) : List (κ × α) → List (κ × α)
  | [] => []
  | (k', a) :: rest => if k' = k then eraseEntries k rest else (k', a) :: eraseEntries k rest

/-- The other keys keep their order. -/
def erase (d : Dict κ α) (k : κ) : Dict κ α := ⟨eraseEntries k d.entries⟩

/-- Changes the value of a key that is there. -/
def modify (d : Dict κ α) (k : κ) (f : α → α) : Dict κ α :=
  match d.get? k with
  | some a => d.put k (f a)
  | none => d

def map {β : Type w} (d : Dict κ α) (f : α → β) : Dict κ β :=
  ⟨d.entries.map fun e => (e.1, f e.2)⟩

def filterKeys (d : Dict κ α) (p : κ → Bool) : Dict κ α := ⟨d.entries.filter fun e => p e.1⟩

def ofList (entries : List (κ × α)) : Dict κ α :=
  entries.foldl (fun d e => d.put e.1 e.2) empty

@[simp] theorem get?_empty (k : κ) : (empty : Dict κ α).get? k = none := rfl

theorem find_putEntries (k k' : κ) (a : α) (entries : List (κ × α)) :
    find k' (putEntries k a entries) = if k = k' then some a else find k' entries := by
  induction entries with
  | nil => simp [putEntries, find]
  | cons e rest ih =>
    obtain ⟨l, b⟩ := e
    by_cases h : l = k <;> by_cases h' : k = k' <;> simp_all [putEntries, find]

@[simp] theorem get?_put (d : Dict κ α) (k k' : κ) (a : α) :
    (d.put k a).get? k' = if k = k' then some a else d.get? k' :=
  find_putEntries k k' a d.entries

theorem find_eraseEntries (k k' : κ) (entries : List (κ × α)) :
    find k' (eraseEntries k entries) = if k = k' then none else find k' entries := by
  induction entries with
  | nil => simp [eraseEntries, find]
  | cons e rest ih =>
    obtain ⟨l, b⟩ := e
    by_cases h : l = k <;> by_cases h' : k = k' <;> simp_all [eraseEntries, find]

@[simp] theorem get?_erase (d : Dict κ α) (k k' : κ) :
    (d.erase k).get? k' = if k = k' then none else d.get? k' :=
  find_eraseEntries k k' d.entries

theorem get?_modify (d : Dict κ α) (k k' : κ) (f : α → α) :
    (d.modify k f).get? k' = if k = k' then (d.get? k').map f else d.get? k' := by
  unfold modify
  by_cases hk : k = k'
  · subst hk
    split
    next a ha => simp [ha]
    next hnone => simp [hnone]
  · split
    next a ha => simp [hk]
    next hnone => simp [hk]

theorem get?_map {β : Type w} (d : Dict κ α) (f : α → β) (k : κ) :
    (d.map f).get? k = (d.get? k).map f := by
  obtain ⟨entries⟩ := d
  simp only [map, get?]
  induction entries with
  | nil => rfl
  | cons e rest ih =>
    obtain ⟨l, a⟩ := e
    by_cases h : l = k
    · simp [find, h]
    · simp [find, h, ih]

theorem mem_entries_of_get? {d : Dict κ α} {k : κ} {a : α} (h : d.get? k = some a) :
    (k, a) ∈ d.entries := by
  obtain ⟨entries⟩ := d
  simp only [get?] at h ⊢
  induction entries with
  | nil => cases h
  | cons e rest ih =>
    obtain ⟨l, b⟩ := e
    by_cases hk : l = k
    · simp_all [find]
    · simp_all [find]

theorem mem_keys_iff (d : Dict κ α) (k : κ) : k ∈ d.keys ↔ (d.get? k).isSome := by
  obtain ⟨entries⟩ := d
  simp only [keys, get?]
  induction entries with
  | nil => simp [find]
  | cons e rest ih =>
    obtain ⟨l, b⟩ := e
    rw [List.map_cons, List.mem_cons, ih]
    by_cases h : l = k
    · simp [find, h]
    · simp [find, h, Ne.symm h]

theorem contains_eq (d : Dict κ α) (k : κ) : d.contains k ↔ k ∈ d.keys := by
  rw [contains, mem_keys_iff]

theorem keys_put (d : Dict κ α) (k : κ) (a : α) :
    (d.put k a).keys = if k ∈ d.keys then d.keys else d.keys ++ [k] := by
  obtain ⟨entries⟩ := d
  simp only [keys, put]
  induction entries with
  | nil => simp [putEntries]
  | cons e rest ih =>
    obtain ⟨l, b⟩ := e
    by_cases h : l = k
    · simp [putEntries, h]
    · simp only [putEntries, h, ↓reduceIte, List.map_cons, ih, List.mem_cons, Ne.symm h, false_or]
      split
      next hk => simp [hk]
      next hk => simp [hk]

theorem nodup_keys_put {d : Dict κ α} (h : d.keys.Nodup) (k : κ) (a : α) :
    (d.put k a).keys.Nodup := by
  rw [keys_put]
  split
  · exact h
  next hk =>
    rw [List.nodup_append]
    refine ⟨h, by simp, ?_⟩
    intro l hl m hm heq
    rw [List.mem_singleton] at hm
    exact hk (hm ▸ heq ▸ hl)

theorem keys_erase (d : Dict κ α) (k : κ) : (d.erase k).keys = d.keys.filter (· ≠ k) := by
  obtain ⟨entries⟩ := d
  simp only [keys, erase]
  induction entries with
  | nil => rfl
  | cons e rest ih =>
    obtain ⟨l, a⟩ := e
    by_cases h : l = k
    · simp [eraseEntries, h, ih]
    · simp [eraseEntries, h, ih]

@[simp] theorem keys_modify (d : Dict κ α) (k : κ) (f : α → α) : (d.modify k f).keys = d.keys := by
  unfold modify
  split
  next a ha =>
    have hk : k ∈ d.keys := by simp [mem_keys_iff, ha]
    rw [keys_put, if_pos hk]
  next => rfl

omit [DecidableEq κ] in
@[simp] theorem keys_map {β : Type w} (d : Dict κ α) (f : α → β) : (d.map f).keys = d.keys :=
  List.map_map

theorem of_mem_entries_put {d : Dict κ α} {k : κ} {a : α} {e : κ × α}
    (h : e ∈ (d.put k a).entries) : e = (k, a) ∨ e ∈ d.entries := by
  obtain ⟨entries⟩ := d
  simp only [put] at h ⊢
  induction entries with
  | nil => simpa [putEntries] using h
  | cons e' rest ih =>
    obtain ⟨l, b⟩ := e'
    by_cases hl : l = k
    · simp only [putEntries, hl, ↓reduceIte, List.mem_cons] at h
      rcases h with h | h
      · exact .inl h
      · exact .inr (List.mem_cons_of_mem _ h)
    · simp only [putEntries, hl, ↓reduceIte, List.mem_cons] at h
      rcases h with h | h
      · exact .inr (h ▸ List.mem_cons_self ..)
      · exact (ih h).imp_right (List.mem_cons_of_mem _)

theorem get?_of_mem_entries {d : Dict κ α} (h : d.keys.Nodup) {k : κ} {a : α}
    (hmem : (k, a) ∈ d.entries) : d.get? k = some a := by
  obtain ⟨entries⟩ := d
  simp only [keys, get?] at h hmem ⊢
  induction entries with
  | nil => cases hmem
  | cons e rest ih =>
    obtain ⟨l, b⟩ := e
    simp only [List.map_cons, List.nodup_cons, List.mem_map, not_exists, not_and] at h
    rcases List.mem_cons.mp hmem with heq | hrest
    · cases heq
      simp [find]
    · have hne : l ≠ k := fun heq => h.1 (k, a) hrest heq.symm
      simp [find, hne, ih h.2 hrest]

theorem get?_filterKeys (d : Dict κ α) (p : κ → Bool) (k : κ) :
    (d.filterKeys p).get? k = if p k then d.get? k else none := by
  obtain ⟨entries⟩ := d
  simp only [filterKeys, get?]
  induction entries with
  | nil => simp [find]
  | cons e rest ih =>
    obtain ⟨l, a⟩ := e
    by_cases hp : p l <;> by_cases hl : l = k <;> simp_all [find]

theorem mem_keys_put {d : Dict κ α} {k l : κ} {a : α} :
    l ∈ (d.put k a).keys ↔ l = k ∨ l ∈ d.keys := by
  rw [keys_put]
  split
  next hk => exact ⟨.inr, fun h => h.elim (fun heq => heq ▸ hk) id⟩
  next => rw [List.mem_append, List.mem_singleton, or_comm]

theorem mem_keys_filterKeys {d : Dict κ α} {p : κ → Bool} {k : κ} :
    k ∈ (d.filterKeys p).keys ↔ k ∈ d.keys ∧ p k := by
  by_cases hp : p k <;> simp [mem_keys_iff, get?_filterKeys, hp]

end Dict

end Rebuild
