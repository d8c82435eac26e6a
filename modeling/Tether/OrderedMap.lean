/-!
# Maps that remember the order of arrival

Entries stand in the order in which their keys first arrived.  Writing to a
key that is present changes its value in place and keeps the key as it was
first given; erasing a key closes the gap.

Keys are compared by Boolean equality, which may be coarser than equality:
two keys that count as one are one entry.
-/

namespace Tether

/-- A finite map whose entries stand in order of arrival. -/
structure OrderedMap (κ β : Type) where
  /-- Keys and values, oldest first. -/
  entries : List (κ × β)

namespace OrderedMap

variable {κ β : Type}

section Basic

/-- The map with no entries. -/
def empty : OrderedMap κ β :=
  ⟨[]⟩

/-- The number of entries. -/
def size (m : OrderedMap κ β) : Nat :=
  m.entries.length

/-- Whether there is no entry. -/
def isEmpty (m : OrderedMap κ β) : Bool :=
  m.entries.isEmpty

/-- The keys, oldest first. -/
def keys (m : OrderedMap κ β) : List κ :=
  m.entries.map (·.1)

/-- The values, in the order of their keys. -/
def values (m : OrderedMap κ β) : List β :=
  m.entries.map (·.2)

/-- The oldest entries, as many as given. -/
def take (m : OrderedMap κ β) (n : Nat) : OrderedMap κ β :=
  ⟨m.entries.take n⟩

/-- The entries that pass a test. -/
def filter (m : OrderedMap κ β) (keep : κ → β → Bool) : OrderedMap κ β :=
  ⟨m.entries.filter (fun e => keep e.1 e.2)⟩

/-- The same keys with other values. -/
def mapValues (m : OrderedMap κ β) (f : κ → β → β) : OrderedMap κ β :=
  ⟨m.entries.map (fun e => (e.1, f e.1 e.2))⟩

end Basic

section Keyed

variable [BEq κ]

/-- The entry of a key, with the key as it was first given. -/
def find? (m : OrderedMap κ β) (k : κ) : Option (κ × β) :=
  m.entries.find? (fun e => e.1 == k)

/-- The value of a key. -/
def get? (m : OrderedMap κ β) (k : κ) : Option β :=
  (m.find? k).map (·.2)

/-- Whether a key has an entry. -/
def contains (m : OrderedMap κ β) (k : κ) : Bool :=
  m.entries.any (fun e => e.1 == k)

/-- Changes the value of the first entry of a key. -/
def modifyEntries (k : κ) (f : β → β) : List (κ × β) → List (κ × β)
  | [] => []
  | (k', v) :: rest =>
      if k' == k then (k', f v) :: rest
      else (k', v) :: modifyEntries k f rest

/-- Changes the value of a key that is present. -/
def modify (m : OrderedMap κ β) (k : κ) (f : β → β) : OrderedMap κ β :=
  ⟨modifyEntries k f m.entries⟩

/-- Writes a value: in place if the key is present, at the end if not. -/
def insert (m : OrderedMap κ β) (k : κ) (v : β) : OrderedMap κ β :=
  if m.contains k then m.modify k (fun _ => v)
  else ⟨m.entries ++ [(k, v)]⟩

/-- The map without a key. -/
def erase (m : OrderedMap κ β) (k : κ) : OrderedMap κ β :=
  ⟨m.entries.eraseP (fun e => e.1 == k)⟩

end Keyed

section Laws

theorem keys_mapValues (m : OrderedMap κ β) (f : κ → β → β) :
    (m.mapValues f).keys = m.keys := by
  simp [keys, mapValues, Function.comp_def]

variable [BEq κ]

theorem map_fst_modifyEntries (k : κ) (f : β → β) (l : List (κ × β)) :
    (modifyEntries k f l).map (·.1) = l.map (·.1) := by
  induction l with
  | nil => rfl
  | cons e rest ih =>
      obtain ⟨k', v⟩ := e
      by_cases h : (k' == k) = true <;> simp [modifyEntries, h, ih]

theorem keys_modify (m : OrderedMap κ β) (k : κ) (f : β → β) :
    (m.modify k f).keys = m.keys :=
  map_fst_modifyEntries k f m.entries

/-- A new key comes last; a key that is present stays where it is. -/
theorem keys_insert (m : OrderedMap κ β) (k : κ) (v : β) :
    (m.insert k v).keys = if m.contains k then m.keys else m.keys ++ [k] := by
  by_cases h : m.contains k = true
  · simp [insert, h, keys_modify]
  · simp [insert, h, keys]

theorem contains_eq_any_keys (m : OrderedMap κ β) (k : κ) :
    m.contains k = m.keys.any (· == k) := by
  simp [contains, keys, Function.comp_def]

theorem isSome_get? (m : OrderedMap κ β) (k : κ) :
    (m.get? k).isSome = m.contains k := by
  simp [get?, find?, contains, List.isSome_find?]

end Laws

end OrderedMap

end Tether
