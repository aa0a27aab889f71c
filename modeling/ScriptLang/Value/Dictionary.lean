import ScriptLang.Value

/-!
# Hashes

The entries of a hash. There is at most one under each `HashKey`: an entry that is put where there is one takes its
place, with its own key and value. The entries are listed in the ascending order of their keys: integers by number,
then `false` and `true`, then strings by code points. So there is one list for each finite map, whatever the order
in which it was filled.
-/

namespace ScriptLang

/-- Whether a key stands in front of another in the order in which hashes list their entries. -/
def Value.before : Value → Value → Bool
  | .integer m, .integer n => m < n
  | .integer _, _ => true
  | .boolean a, .boolean b => !a && b
  | .boolean _, .string _ => true
  | .string s, .string t => s < t
  | _, _ => false

/-- The entries of a hash. -/
abbrev Dictionary (α : Type) := List (StoredKey Value × α)

namespace Dictionary

variable {α : Type}

/-- The key and the value that are found under a key. -/
def pair? (key : HashKey) (entries : Dictionary α) : Option (StoredKey Value × α) :=
  entries.find? fun entry => entry.1.hashKey = key

/-- The value that is found under a key. -/
def get? (key : HashKey) (entries : Dictionary α) : Option α := (pair? key entries).map Prod.snd

/-- Drops the entry that is found under a key. -/
def erase (key : HashKey) (entries : Dictionary α) : Dictionary α :=
  entries.filter fun entry => entry.1.hashKey ≠ key

/-- Puts an entry in its place in the order of keys. -/
def place (entry : StoredKey Value × α) : Dictionary α → Dictionary α
  | [] => [entry]
  | other :: rest =>
    if entry.1.toValue.before other.1.toValue then entry :: other :: rest else other :: place entry rest

/-- Puts a value under a key, in place of the entry that was there. -/
def insert (key : StoredKey Value) (value : α) (entries : Dictionary α) : Dictionary α :=
  place (key, value) (erase key.hashKey entries)

variable {key : HashKey} {stored : StoredKey Value} {value : α} {entry e : StoredKey Value × α}
  {entries : Dictionary α}

theorem mem_place : e ∈ place entry entries ↔ e = entry ∨ e ∈ entries := by
  induction entries with
  | nil => exact List.mem_cons
  | cons other rest ih =>
      rw [place]
      split
      · exact List.mem_cons
      · rw [List.mem_cons, ih, List.mem_cons, or_left_comm]

theorem mem_erase : e ∈ erase key entries ↔ e ∈ entries ∧ e.1.hashKey ≠ key := by simp [erase]

/-- An entry that is put into a hash displaces the one that was found under its key. -/
theorem mem_insert : e ∈ insert stored value entries ↔
    e = (stored, value) ∨ e ∈ entries ∧ e.1.hashKey ≠ stored.hashKey := by
  rw [insert, mem_place, mem_erase]

/-! ### What is found -/

/-- The first entry under a key is found. -/
theorem pair?_cons (key : HashKey) (entry : StoredKey Value × α) (entries : Dictionary α) :
    pair? key (entry :: entries) = if entry.1.hashKey = key then some entry else pair? key entries := by
  by_cases h : entry.1.hashKey = key <;> simp [pair?, h]

/-- What is found is an entry, and it has the key that was looked for. -/
theorem mem_of_pair? (h : pair? key entries = some entry) : entry ∈ entries ∧ entry.1.hashKey = key := by
  unfold pair? at h
  exact ⟨List.mem_of_find?_eq_some h, by simpa using List.find?_some h⟩

theorem mem_of_get? (h : get? key entries = some value) : ∃ stored, (stored, value) ∈ entries := by
  obtain ⟨⟨stored, found⟩, hpair, rfl⟩ := Option.map_eq_some_iff.mp h
  exact ⟨stored, (mem_of_pair? hpair).1⟩

/-- An entry with a new key is found. -/
theorem pair?_place_self (h : ∀ other ∈ entries, other.1.hashKey ≠ entry.1.hashKey) :
    pair? entry.1.hashKey (place entry entries) = some entry := by
  induction entries with
  | nil => exact (pair?_cons _ _ _).trans (if_pos rfl)
  | cons other rest ih =>
      obtain ⟨hother, hrest⟩ := List.forall_mem_cons.mp h
      rw [place]
      split
      · rw [pair?_cons, if_pos rfl]
      · rw [pair?_cons, if_neg hother, ih hrest]

/-- Placing it changes nothing under other keys. -/
theorem pair?_place_of_ne (h : entry.1.hashKey ≠ key) : pair? key (place entry entries) = pair? key entries := by
  induction entries with
  | nil => exact (pair?_cons _ _ _).trans (if_neg h)
  | cons other rest ih =>
      rw [place]
      split
      · rw [pair?_cons, if_neg h]
      · rw [pair?_cons, pair?_cons, ih]

theorem pair?_erase_of_ne {other : HashKey} (h : other ≠ key) :
    pair? other (erase key entries) = pair? other entries := by
  induction entries with
  | nil => rfl
  | cons entry rest ih =>
      rw [pair?_cons, ← ih]
      by_cases hkey : entry.1.hashKey = key
      · have hne : entry.1.hashKey ≠ other := fun heq => h (heq.symm.trans hkey)
        rw [if_neg hne, erase, List.filter_cons_of_neg (by simpa using hkey), erase]
      · rw [erase, List.filter_cons_of_pos (by simpa using hkey), pair?_cons, erase]

/-- **The entry that was put last** under a key is found there, with its own key and value. -/
@[simp] theorem pair?_insert_self (stored : StoredKey Value) (value : α) (entries : Dictionary α) :
    pair? stored.hashKey (insert stored value entries) = some (stored, value) := by
  have hfresh : ∀ other ∈ erase stored.hashKey entries, other.1.hashKey ≠ (stored, value).1.hashKey :=
    fun _ hother => (mem_erase.mp hother).2
  exact pair?_place_self hfresh

/-- What is found under other keys stays as it is. -/
theorem pair?_insert_of_ne (h : key ≠ stored.hashKey) (value : α) (entries : Dictionary α) :
    pair? key (insert stored value entries) = pair? key entries :=
  (pair?_place_of_ne h.symm).trans (pair?_erase_of_ne h)

end Dictionary

/-- Builds a hash from pairs of a key and a value, of which the last one for a key counts. Fails with
the first key that cannot be one. -/
def Value.hashOfPairs [StringHash] (entries : Dictionary Value) : List (Value × Value) → Except Value Value
  | [] => .ok (.hash entries)
  | (key, value) :: rest =>
    match key.key? with
    | some hashKey => hashOfPairs (Dictionary.insert ⟨hashKey, key⟩ value entries) rest
    | none => .error key

end ScriptLang
