import Mathlib.Data.List.Nodup
import Tether.OrderedMap

/-!
# Entries of ordered maps

What every operation does to the entries of a map: which entries a result
has, and that changing all values commutes with the operations that do not
look at values.
-/

namespace Tether
namespace OrderedMap

variable {κ β γ : Type}

theorem mem_keys_of_mem {m : OrderedMap κ β} {e : κ × β} (h : e ∈ m.entries) : e.1 ∈ m.keys :=
  List.mem_map_of_mem h

section Members

variable [BEq κ]

theorem mem_of_find? {m : OrderedMap κ β} {k : κ} {e : κ × β} (h : m.find? k = some e) :
    e ∈ m.entries ∧ (e.1 == k) = true :=
  ⟨List.mem_of_find?_eq_some h, by simpa using List.find?_some h⟩

theorem mem_of_get? {m : OrderedMap κ β} {k : κ} {v : β} (h : m.get? k = some v) :
    ∃ k', (k', v) ∈ m.entries ∧ (k' == k) = true := by
  obtain ⟨e, he, rfl⟩ := Option.map_eq_some_iff.mp h
  exact ⟨e.1, mem_of_find? he⟩

theorem get?_eq_none_iff {m : OrderedMap κ β} {k : κ} :
    m.get? k = none ↔ m.contains k = false := by
  rw [← isSome_get?]
  cases m.get? k <;> simp

/-- What a change does not touch is looked up as before. -/
theorem map_get?_modify {f : β → β} {g : β → γ} (hg : ∀ v, g (f v) = g v) (m : OrderedMap κ β)
    (k k' : κ) : ((m.modify k f).get? k').map g = (m.get? k').map g := by
  unfold modify get? find?
  simp only [Option.map_map]
  induction m.entries with
  | nil => rfl
  | cons d rest ih =>
      obtain ⟨k'', v⟩ := d
      unfold modifyEntries
      by_cases hk : (k'' == k) = true
      · rw [if_pos hk]
        by_cases hk' : (k'' == k') = true
        · simp [hk', hg]
        · simp [hk']
      · rw [if_neg hk]
        by_cases hk' : (k'' == k') = true
        · simp [hk']
        · simpa [hk'] using ih

/-- What a change does not touch is listed as before. -/
theorem map_entries_modify {f : β → β} {g : β → γ} (hg : ∀ v, g (f v) = g v)
    (m : OrderedMap κ β) (k : κ) :
    (m.modify k f).entries.map (fun e => (e.1, g e.2)) =
      m.entries.map (fun e => (e.1, g e.2)) := by
  unfold modify
  dsimp only
  induction m.entries with
  | nil => rfl
  | cons d rest ih =>
      unfold modifyEntries
      split
      · simp [hg]
      · simp [ih]

theorem entries_insert_of_not_contains {m : OrderedMap κ β} {k : κ}
    (h : m.contains k = false) (v : β) : (m.insert k v).entries = m.entries ++ [(k, v)] := by
  simp [insert, h]

theorem modify_of_not_contains {m : OrderedMap κ β} {k : κ} (h : m.contains k = false)
    (f : β → β) : m.modify k f = m := by
  obtain ⟨entries⟩ := m
  unfold modify
  congr 1
  induction entries with
  | nil => rfl
  | cons d rest ih =>
      obtain ⟨hd, hrest⟩ := Bool.or_eq_false_iff.mp ((List.any_cons ..).symm.trans h)
      rw [modifyEntries, if_neg (by simp [hd]), ih hrest]

theorem mem_of_mem_erase {m : OrderedMap κ β} {k : κ} {e : κ × β}
    (h : e ∈ (m.erase k).entries) : e ∈ m.entries :=
  List.mem_of_mem_eraseP h

theorem keys_erase (m : OrderedMap κ β) (k : κ) :
    (m.erase k).keys = m.keys.eraseP (fun k' => k' == k) := by
  simp [keys, erase, List.eraseP_map, Function.comp_def]

/-- Erasing a key takes out the entry that a lookup finds. -/
theorem exists_append_of_find? {m : OrderedMap κ β} {k : κ} {e : κ × β}
    (h : m.find? k = some e) :
    ∃ before after, m.entries = before ++ e :: after ∧
      (m.erase k).entries = before ++ after := by
  obtain ⟨hk, before, after, hm, hb⟩ := List.find?_eq_some_iff_append.mp h
  refine ⟨before, after, hm, ?_⟩
  unfold erase
  rw [hm, List.eraseP_append_right _ (by simpa using hb)]
  simp [hk]

end Members

section Values

variable (m : OrderedMap κ β) (f : β → β)

@[simp] theorem size_mapValues : (m.mapValues (fun _ => f)).size = m.size := by
  simp [size, mapValues]

theorem mapValues_take (n : Nat) :
    (m.take n).mapValues (fun _ => f) = (m.mapValues (fun _ => f)).take n := by
  simp [take, mapValues, List.map_take]

theorem mapValues_filter {keep keep' : κ → β → Bool} (hk : ∀ k v, keep' k (f v) = keep k v) :
    (m.filter keep).mapValues (fun _ => f) = (m.mapValues (fun _ => f)).filter keep' := by
  simp [filter, mapValues, List.filter_map, Function.comp_def, hk]

theorem mapValues_mapValues {p p' : κ → β → β} (hp : ∀ k v, f (p k v) = p' k (f v)) :
    (m.mapValues p).mapValues (fun _ => f) = (m.mapValues (fun _ => f)).mapValues p' := by
  simp [mapValues, Function.comp_def, hp]

variable [BEq κ]

@[simp] theorem contains_mapValues (k : κ) :
    (m.mapValues (fun _ => f)).contains k = m.contains k := by
  rw [contains_eq_any_keys, keys_mapValues, ← contains_eq_any_keys]

theorem find?_mapValues (k : κ) :
    (m.mapValues (fun _ => f)).find? k = (m.find? k).map (fun e => (e.1, f e.2)) := by
  rw [find?, find?, mapValues, List.find?_map]
  rfl

@[simp] theorem get?_mapValues (k : κ) :
    (m.mapValues (fun _ => f)).get? k = (m.get? k).map f := by
  simp [get?, find?_mapValues, Function.comp_def]

theorem map_modifyEntries {p p' : β → β} (hp : ∀ v, f (p v) = p' (f v)) (k : κ)
    (l : List (κ × β)) :
    (modifyEntries k p l).map (fun e => (e.1, f e.2)) =
      modifyEntries k p' (l.map (fun e => (e.1, f e.2))) := by
  induction l with
  | nil => rfl
  | cons e rest ih =>
      obtain ⟨k', v⟩ := e
      by_cases h : (k' == k) = true <;> simp [modifyEntries, h, ih, hp]

theorem mapValues_modify {p p' : β → β} (hp : ∀ v, f (p v) = p' (f v)) (k : κ) :
    (m.modify k p).mapValues (fun _ => f) = (m.mapValues (fun _ => f)).modify k p' :=
  congrArg OrderedMap.mk (map_modifyEntries f hp k m.entries)

theorem mapValues_insert (k : κ) (v : β) :
    (m.insert k v).mapValues (fun _ => f) = (m.mapValues (fun _ => f)).insert k (f v) := by
  unfold insert
  rw [contains_mapValues]
  split
  · refine mapValues_modify m f ?_ k
    exact fun _ => rfl
  · simp [mapValues]

theorem mapValues_erase (k : κ) :
    (m.erase k).mapValues (fun _ => f) = (m.mapValues (fun _ => f)).erase k := by
  simp [erase, mapValues, List.eraseP_map, Function.comp_def]

end Values

section Unique

variable [BEq κ] [LawfulBEq κ]

theorem contains_iff_mem_keys {m : OrderedMap κ β} {k : κ} :
    m.contains k = true ↔ k ∈ m.keys := by
  simp [contains_eq_any_keys]

theorem contains_insert_self (m : OrderedMap κ β) (k : κ) (v : β) :
    (m.insert k v).contains k = true := by
  rw [contains_iff_mem_keys, keys_insert]
  split
  · rename_i hk
    exact contains_iff_mem_keys.mp hk
  · exact List.mem_append_right _ (List.mem_singleton_self k)

theorem modifyEntries_eq_map {l : List (κ × β)} (h : (l.map (·.1)).Nodup) (k : κ) (f : β → β) :
    modifyEntries k f l = l.map (fun e => if e.1 == k then (e.1, f e.2) else e) := by
  induction l with
  | nil => rfl
  | cons d rest ih =>
      obtain ⟨k', v⟩ := d
      obtain ⟨hk, hrest⟩ := List.nodup_cons.mp h
      unfold modifyEntries
      rw [List.map_cons]
      by_cases hd : (k' == k) = true
      · rw [if_pos hd, if_pos hd]
        congr 1
        have hid : ∀ e ∈ rest, (if e.1 == k then (e.1, f e.2) else e) = id e := by
          intro e he
          rw [if_neg, id]
          intro heq
          have hmem : k' ∈ rest.map (·.1) := by
            rw [beq_iff_eq.mp hd, ← beq_iff_eq.mp heq]
            exact List.mem_map_of_mem he
          exact hk hmem
        rw [List.map_congr_left hid, List.map_id]
      · rw [if_neg hd, if_neg hd, ih hrest]

/-- Changing the value of a key leaves the other entries as they are. -/
theorem entries_modify {m : OrderedMap κ β} (h : m.keys.Nodup) (k : κ) (f : β → β) :
    (m.modify k f).entries = m.entries.map (fun e => if e.1 == k then (e.1, f e.2) else e) :=
  modifyEntries_eq_map h k f

theorem eraseP_eq_filter {l : List (κ × β)} (h : (l.map (·.1)).Nodup) (k : κ) :
    l.eraseP (fun e => e.1 == k) = l.filter (fun e => !(e.1 == k)) := by
  induction l with
  | nil => rfl
  | cons d rest ih =>
      obtain ⟨hk, hrest⟩ := List.nodup_cons.mp h
      by_cases hd : (d.1 == k) = true
      · rw [List.eraseP_cons_of_pos (p := fun e : κ × β => e.1 == k) hd,
          List.filter_cons_of_neg (by simp [hd])]
        refine (List.filter_eq_self.mpr (fun e he => ?_)).symm
        rw [Bool.not_eq_true', beq_eq_false_iff_ne]
        rintro rfl
        have hmem : d.1 ∈ rest.map (·.1) := by
          rw [beq_iff_eq.mp hd]
          exact List.mem_map_of_mem he
        exact hk hmem
      · rw [List.eraseP_cons_of_neg (p := fun e : κ × β => e.1 == k) hd,
          List.filter_cons_of_pos (by simpa using hd), ih hrest]

/-- Erasing a key leaves the entries of the other keys. -/
theorem entries_erase {m : OrderedMap κ β} (h : m.keys.Nodup) (k : κ) :
    (m.erase k).entries = m.entries.filter (fun e => !(e.1 == k)) :=
  eraseP_eq_filter h k

theorem get?_eq_some_iff {m : OrderedMap κ β} (h : m.keys.Nodup) {k : κ} {v : β} :
    m.get? k = some v ↔ (k, v) ∈ m.entries := by
  constructor
  · intro hg
    obtain ⟨k', hm, hk⟩ := mem_of_get? hg
    rwa [beq_iff_eq.mp hk] at hm
  · intro hm
    cases hg : m.get? k with
    | none =>
        have := get?_eq_none_iff.mp hg
        rw [contains_iff_mem_keys.mpr (mem_keys_of_mem hm)] at this
        cases this
    | some w =>
        obtain ⟨k', hm', hk⟩ := mem_of_get? hg
        rw [beq_iff_eq.mp hk] at hm'
        have := List.inj_on_of_nodup_map h hm hm' rfl
        rw [(Prod.mk.inj this).2]

theorem get?_modify_self {m : OrderedMap κ β} (h : m.keys.Nodup) {k : κ} {v : β}
    (hv : m.get? k = some v) (f : β → β) : (m.modify k f).get? k = some (f v) := by
  have hk : (m.modify k f).keys.Nodup := by
    rw [keys_modify]
    exact h
  rw [get?_eq_some_iff hk, entries_modify h]
  exact List.mem_map.mpr ⟨(k, v), (get?_eq_some_iff h).mp hv, by simp⟩

/-- Changing a value to itself changes nothing. -/
theorem modify_eq_self {m : OrderedMap κ β} (h : m.keys.Nodup) {k : κ} {v : β}
    (hv : m.get? k = some v) {f : β → β} (hf : f v = v) : m.modify k f = m := by
  refine congrArg OrderedMap.mk (Eq.trans (entries_modify h k f) ?_)
  refine (List.map_congr_left (fun e he => ?_)).trans (List.map_id _)
  split
  · rename_i hk
    have hget := (get?_eq_some_iff h).mpr he
    rw [beq_iff_eq.mp hk, hv] at hget
    rw [← Option.some.inj hget, hf, Option.some.inj hget]
    rfl
  · rfl

theorem get?_erase_self {m : OrderedMap κ β} (h : m.keys.Nodup) (k : κ) :
    (m.erase k).get? k = none := by
  rw [get?, find?, entries_erase h, Option.map_eq_none_iff, List.find?_eq_none]
  intro e he
  simpa using (List.mem_filter.mp he).2

theorem get?_erase_of_ne {m : OrderedMap κ β} (h : m.keys.Nodup) {k k' : κ} (hk : k' ≠ k) :
    (m.erase k).get? k' = m.get? k' := by
  refine congrArg (Option.map (fun e : κ × β => e.2)) ?_
  unfold find?
  rw [entries_erase h, List.find?_filter]
  congr 1
  funext e
  by_cases he : e.1 = k'
  · simp [he, hk]
  · simp [he]

end Unique

end OrderedMap
end Tether
