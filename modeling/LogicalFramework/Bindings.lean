import LogicalFramework.Text.Quoted

/-!
# Bindings

Lists of bindings from keys to values in which the newest binding of a key shadows the older ones.
Bindings are values: an operation makes a new list and changes none.
-/

namespace LogicalFramework

/-- Bindings of keys to values, newest first. -/
@[ext]
structure Bindings (κ α : Type) where
  /-- The bindings, newest first. -/
  newestFirst : List (κ × α)
deriving DecidableEq

namespace Bindings

variable {κ α : Type}

/-- No bindings. -/
def empty : Bindings κ α :=
  ⟨[]⟩

/-- The bindings of a list that has the oldest first. -/
def ofOldestFirst (entries : List (κ × α)) : Bindings κ α :=
  ⟨entries.reverse⟩

/-- The bindings as a list, oldest first. -/
def oldestFirst (b : Bindings κ α) : List (κ × α) :=
  b.newestFirst.reverse

/-- One more binding, which is the newest. -/
def add (b : Bindings κ α) (key : κ) (value : α) : Bindings κ α :=
  ⟨(key, value) :: b.newestFirst⟩

/-- The number of bindings, shadowed ones included. -/
def size (b : Bindings κ α) : Nat :=
  b.newestFirst.length

/-- Whether there is no binding. -/
def isEmpty (b : Bindings κ α) : Bool :=
  b.newestFirst.isEmpty

/-- The newest binding and the bindings before it. -/
def splitNewest? (b : Bindings κ α) : Option ((κ × α) × Bindings κ α) :=
  match b.newestFirst with
  | [] => none
  | entry :: older => some (entry, ⟨older⟩)

/-- The value of the newest binding whose key satisfies `p`. -/
def find? (b : Bindings κ α) (p : κ → Bool) : Option α :=
  (b.newestFirst.find? fun entry => p entry.1).map Prod.snd

variable [DecidableEq κ]

/-- The value of the newest binding of a key. -/
def lookup (b : Bindings κ α) (key : κ) : Option α :=
  b.find? fun k => k = key

/-- Whether a key is bound. -/
def contains (b : Bindings κ α) (key : κ) : Bool :=
  (b.lookup key).isSome

/-- The bindings without those of a key. -/
def erase (b : Bindings κ α) (key : κ) : Bindings κ α :=
  ⟨b.newestFirst.filter fun entry => entry.1 ≠ key⟩

/-- The bound keys, newest first, each once. -/
def keys (b : Bindings κ α) : List κ :=
  (b.newestFirst.map Prod.fst).eraseDups

omit [DecidableEq κ] in
@[simp]
theorem oldestFirst_ofOldestFirst (entries : List (κ × α)) :
    (ofOldestFirst entries).oldestFirst = entries := by
  simp [oldestFirst, ofOldestFirst]

@[simp]
theorem lookup_empty (key : κ) : (empty : Bindings κ α).lookup key = none :=
  rfl

theorem lookup_add (b : Bindings κ α) (key : κ) (value : α) (k : κ) :
    (b.add key value).lookup k = if key = k then some value else b.lookup k := by
  by_cases h : key = k <;> simp [lookup, find?, add, h]

/-- A binding of a new key shadows none. -/
theorem lookup_add_of_lookup {b : Bindings κ α} {key k : κ} {value v : α}
    (hkey : b.contains key = false) (h : b.lookup k = some v) :
    (b.add key value).lookup k = some v := by
  have hne : key ≠ k := by
    rintro rfl
    rw [contains, h] at hkey
    exact absurd hkey (by simp)
  rw [lookup_add, if_neg hne, h]

theorem lookup_or_eq_of_lookup_add {b : Bindings κ α} {key k : κ} {value v : α}
    (h : (b.add key value).lookup k = some v) : b.lookup k = some v ∨ v = value := by
  rw [lookup_add] at h
  split at h
  · exact Or.inr (Option.some.inj h).symm
  · exact Or.inl h

theorem mem_of_lookup {b : Bindings κ α} {key : κ} {value : α} (h : b.lookup key = some value) :
    (key, value) ∈ b.newestFirst := by
  unfold lookup find? at h
  rw [Option.map_eq_some_iff] at h
  obtain ⟨entry, hfind, rfl⟩ := h
  have hkey : entry.1 = key := by simpa using List.find?_some hfind
  rw [← hkey]
  exact List.mem_of_find?_eq_some hfind

/-- A key is bound if one of the bindings is of this key. -/
theorem contains_iff {b : Bindings κ α} {key : κ} :
    b.contains key = true ↔ ∃ value, (key, value) ∈ b.newestFirst := by
  rw [contains, lookup, find?, Option.isSome_map, List.find?_isSome]
  constructor
  · rintro ⟨⟨k, value⟩, hmem, hk⟩
    exact ⟨value, of_decide_eq_true hk ▸ hmem⟩
  · rintro ⟨value, hmem⟩
    exact ⟨(key, value), hmem, decide_eq_true rfl⟩

theorem mem_keys (b : Bindings κ α) (key : κ) : key ∈ b.keys ↔ b.contains key = true := by
  rw [keys, List.mem_eraseDups, List.mem_map, contains_iff]
  constructor
  · rintro ⟨entry, hentry, rfl⟩
    exact ⟨entry.2, hentry⟩
  · rintro ⟨value, hvalue⟩
    exact ⟨(key, value), hvalue, rfl⟩

theorem lookup_cons (key : κ) (value : α) (older : List (κ × α)) (k : κ) :
    (mk ((key, value) :: older)).lookup k = if key = k then some value else (mk older).lookup k :=
  lookup_add ⟨older⟩ key value k

theorem lookup_append (newer older : List (κ × α)) (k : κ) :
    (mk (newer ++ older)).lookup k = ((mk newer).lookup k).or ((mk older).lookup k) := by
  rw [lookup, find?, List.find?_append, Option.map_or]
  rfl

theorem contains_append (newer older : List (κ × α)) (k : κ) :
    (mk (newer ++ older)).contains k = ((mk newer).contains k || (mk older).contains k) := by
  rw [contains, lookup_append, Option.isSome_or]
  rfl

/-- Of the bindings of some keys, what is bound is what was bound, for these keys. -/
theorem lookup_filter (entries : List (κ × α)) (keep : κ → Bool) (k : κ) :
    (mk (entries.filter fun entry => keep entry.1)).lookup k =
      if keep k then (mk entries).lookup k else none := by
  induction entries with
  | nil => simp [lookup, find?]
  | cons entry older ih =>
    obtain ⟨key, value⟩ := entry
    rw [List.filter_cons, lookup_cons]
    split
    · rename_i hkeep
      rw [lookup_cons, ih]
      by_cases hk : key = k
      · subst hk
        simp_all
      · simp [hk]
    · rename_i hkeep
      rw [ih]
      by_cases hk : key = k
      · subst hk
        simp [hkeep]
      · simp [hk]

theorem contains_filter (entries : List (κ × α)) (keep : κ → Bool) (k : κ) :
    (mk (entries.filter fun entry => keep entry.1)).contains k =
      (keep k && (mk entries).contains k) := by
  rw [contains, lookup_filter]
  cases keep k <;> rfl

theorem lookup_erase (b : Bindings κ α) (key k : κ) :
    (b.erase key).lookup k = if k = key then none else b.lookup k := by
  rw [erase, lookup_filter b.newestFirst (fun k => k ≠ key) k]
  by_cases h : k = key
  · simp [h]
  · simp [h]

theorem contains_erase (b : Bindings κ α) (key k : κ) :
    (b.erase key).contains k = (k ≠ key && b.contains k) := by
  rw [erase, contains_filter b.newestFirst (fun k => k ≠ key) k]

/-- There is nothing to take away for a key that is not bound. -/
theorem erase_of_not_contains {b : Bindings κ α} {key : κ} (h : b.contains key = false) :
    b.erase key = b := by
  ext1
  refine List.filter_eq_self.mpr fun entry hentry => decide_eq_true ?_
  rintro rfl
  exact absurd (contains_iff.mpr ⟨entry.2, hentry⟩) (by simp [h])

/-- What is bound without the bindings of a key is bound with them. -/
theorem lookup_of_lookup_erase {b : Bindings κ α} {key k : κ} {value : α}
    (h : (b.erase key).lookup k = some value) : b.lookup k = some value := by
  rw [lookup_erase] at h
  split at h
  · exact absurd h (by simp)
  · exact h

/-- Taking away the bindings of a bound key leaves fewer. -/
theorem size_erase_lt {b : Bindings κ α} {key : κ} (h : b.contains key = true) :
    (b.erase key).size < b.size := by
  obtain ⟨value, hvalue⟩ := Option.isSome_iff_exists.mp h
  exact List.length_filter_lt_length_iff_exists.mpr ⟨_, mem_of_lookup hvalue, by simp⟩

end Bindings

/-- A listing of bindings, oldest first, between braces. -/
def Bindings.render {α : Type} (value : α → String) (b : Bindings String α) : String :=
  let entries := b.oldestFirst.map fun (k, v) => Text.quoted k ++ ": " ++ value v
  "\x7b" ++ ", ".intercalate entries ++ "\x7d"

end LogicalFramework
