import Tether.Proofs.Tableau.Slots

/-!
# Journals

A tableau recalls an earlier one if its open journal, together with the slots
that were not saved, still holds everything that the earlier tableau held.
Opening a journal establishes this, every change keeps it, and a rollback
gives the earlier tableau back exactly.  A journal saves slots of the earlier
tableau only, so the rollback finds every slot that it puts back; the mark of a
fault that came before it stays.

A tableau pads another one if it differs by unused symbols at the end only.
-/

namespace Tether
namespace Simplex
namespace Tableau

variable {α : Type}

section Views

/-- The slots, the count, the journal and the mark are all there is. -/
theorem eq_of_slots {t u : Tableau α} (hs : t.slots = u.slots)
    (hc : t.basicCount = u.basicCount) (hj : t.journal = u.journal)
    (hf : t.faulted = u.faulted) : t = u := by
  cases t
  cases u
  simp_all

/-- Kinds and rows say all about the slots. -/
theorem slots_ext {t u : Tableau α} (hk : ∀ id, t.kindAt? id = u.kindAt? id)
    (hr : ∀ id, t.rowAt? id = u.rowAt? id) : t.slots = u.slots := by
  refine Array.ext_getElem? (fun id => ?_)
  have hk := hk id
  have hr := hr id
  unfold kindAt? at hk
  unfold rowAt? at hr
  cases ht : t.slots[id]? with
  | none =>
      rw [ht] at hk
      exact (Option.map_eq_none_iff.mp hk.symm).symm
  | some a =>
      rw [ht] at hk hr
      obtain ⟨b, hb, hab⟩ := Option.map_eq_some_iff.mp hk.symm
      rw [hb] at hr ⊢
      cases a
      cases b
      simp_all

theorem kindAt?_eq_none_iff {t : Tableau α} {id : Nat} :
    t.kindAt? id = none ↔ t.symbolCount ≤ id := by
  simp [kindAt?, symbolCount]

theorem rowAt?_eq_none_of_le {t : Tableau α} {id : Nat} (h : t.symbolCount ≤ id) :
    t.rowAt? id = none := by
  have : t.slots[id]? = none := Array.getElem?_eq_none h
  simp [rowAt?, this]

end Views

section Recalling

/-- The journal and the slots that are not saved in it hold what an earlier
tableau held. -/
structure Records (t₀ t : Tableau α) (j : Journal α) : Prop where
  journal : t.journal = some j
  symbols : j.symbols = t₀.symbolCount
  basicCount : j.basicCount = t₀.basicCount
  kinds : ∀ id, id < t₀.symbolCount → t.kindAt? id = t₀.kindAt? id
  saved : ∀ e ∈ j.saved, e.1 < t₀.symbolCount ∧ e.2 = t₀.rowAt? e.1
  unsaved : ∀ id, id < t₀.symbolCount → (∀ e ∈ j.saved, e.1 ≠ id) →
    t.rowAt? id = t₀.rowAt? id

theorem Records.symbolCount_le {t₀ t : Tableau α} {j : Journal α} (h : Records t₀ t j) :
    t₀.symbolCount ≤ t.symbolCount := by
  by_contra hlt
  have := h.kinds t.symbolCount (by omega)
  rw [kindAt?_eq_none_iff.mpr (Nat.le_refl _), eq_comm, kindAt?_eq_none_iff] at this
  omega

/-- A rollback would give back an earlier tableau. -/
def Recalls (t t₀ : Tableau α) : Prop :=
  ∃ j, Records t₀ t j

theorem recalls_openJournal (t : Tableau α) : t.openJournal.Recalls t :=
  ⟨⟨t.symbolCount, t.basicCount, []⟩, rfl, rfl, rfl, fun _ _ => rfl, by simp,
    fun _ _ _ => rfl⟩

theorem Recalls.save {t t₀ : Tableau α} (h : t.Recalls t₀) (id : Nat) :
    (t.save id).Recalls t₀ := by
  obtain ⟨j, hj⟩ := h
  unfold Tableau.save
  rw [hj.journal]
  dsimp only
  split
  · rename_i hc
    simp only [Bool.and_eq_true, decide_eq_true_eq, Bool.not_eq_true',
      List.any_eq_false, beq_iff_eq] at hc
    refine ⟨_, rfl, hj.symbols, hj.basicCount, hj.kinds, ?_, ?_⟩
    · intro e he
      rcases List.mem_append.mp he with he | he
      · exact hj.saved e he
      · rw [List.mem_singleton.mp he]
        have hid : id < t₀.symbolCount := hj.symbols ▸ hc.1
        exact ⟨hid, hj.unsaved id hid hc.2⟩
    · intro i hi hn
      exact hj.unsaved i hi (fun e he => hn e (List.mem_append_left _ he))
  · exact ⟨j, hj⟩

/-- Saving a slot of the earlier tableau leaves it in the journal. -/
theorem saved_of_save {t t₀ : Tableau α} (h : t.Recalls t₀) {id : Nat}
    (hid : id < t₀.symbolCount) {j : Journal α} (hj : (t.save id).journal = some j) :
    ∃ e ∈ j.saved, e.1 = id := by
  obtain ⟨j₀, hj₀⟩ := h
  unfold Tableau.save at hj
  rw [hj₀.journal] at hj
  dsimp only at hj
  split at hj
  · cases hj
    exact ⟨(id, t.rowAt? id), by simp, rfl⟩
  · rename_i hc
    have hlt : id < j₀.symbols := hj₀.symbols ▸ hid
    rw [hj₀.journal, Option.some.injEq] at hj
    rw [← hj]
    simpa [hlt] using hc

/-- A slot may be overwritten once it is saved. -/
theorem Recalls.overwrite {t t₀ u : Tableau α} (h : t.Recalls t₀) (id : Nat)
    (hj : u.journal = (t.save id).journal) (hk : ∀ i, u.kindAt? i = t.kindAt? i)
    (hr : ∀ i, id ≠ i → u.rowAt? i = t.rowAt? i) : u.Recalls t₀ := by
  obtain ⟨j, hs⟩ := h.save id
  refine ⟨j, hj.trans hs.journal, hs.symbols, hs.basicCount, ?_, hs.saved, ?_⟩
  · intro i hi
    rw [hk, ← kindAt?_save t id i]
    exact hs.kinds i hi
  · intro i hi hn
    have hne : id ≠ i := by
      rintro rfl
      obtain ⟨e, he, hid⟩ := saved_of_save h hi hs.journal
      exact hn e he hid
    rw [hr i hne]
    have := hs.unsaved i hi hn
    rwa [rowAt?_save] at this

theorem Recalls.newSymbol {t t₀ : Tableau α} (h : t.Recalls t₀) (kind : SymbolKind) :
    (t.newSymbol kind).2.Recalls t₀ := by
  obtain ⟨j, hj⟩ := h
  refine ⟨j, hj.journal, hj.symbols, hj.basicCount, ?_, hj.saved, ?_⟩
  · intro id hid
    have := hj.symbolCount_le
    rw [kindAt?_newSymbol, if_neg (by omega)]
    exact hj.kinds id hid
  · intro id hid hn
    rw [rowAt?_newSymbol]
    exact hj.unsaved id hid hn

theorem Recalls.modify {t t₀ : Tableau α} (h : t.Recalls t₀) (s : Symbol)
    (f : Row α → Row α) : (t.modify s f).Recalls t₀ :=
  h.overwrite s.id rfl (kindAt?_modify t s f)
    (fun i hi => by rw [rowAt?_modify, if_neg hi])

theorem Recalls.insert {t t₀ : Tableau α} (h : t.Recalls t₀) (s : Symbol) (r : Row α) :
    (t.insert s r).Recalls t₀ :=
  h.overwrite s.id rfl (kindAt?_insert t s r)
    (fun i hi => by rw [rowAt?_insert, if_neg (fun hc => hi hc.1)])

theorem Recalls.erase {t t₀ : Tableau α} (h : t.Recalls t₀) (s : Symbol) :
    (t.erase s).Recalls t₀ :=
  h.overwrite s.id rfl (kindAt?_erase t s)
    (fun i hi => by rw [rowAt?_erase, if_neg hi])

theorem Recalls.modifyMentioning {t t₀ : Tableau α} (h : t.Recalls t₀) (s : Symbol)
    (f : Symbol → Row α → Row α) : (t.modifyMentioning s f).Recalls t₀ :=
  modifyMentioning_induction (motive := fun u => u.Recalls t₀) h (fun _ b hu => hu.modify b (f b))

end Recalling

section Rollback

theorem symbolCount_restore (t : Tableau α) (e : Nat × Option (Row α)) :
    (t.restore e).symbolCount = t.symbolCount := by
  simp [restore, symbolCount]

theorem kindAt?_restore (t : Tableau α) (e : Nat × Option (Row α)) (id : Nat) :
    (t.restore e).kindAt? id = t.kindAt? id := by
  simp only [restore, kindAt?, Array.getElem?_modify]
  split <;> simp [Function.comp_def]

theorem rowAt?_restore (t : Tableau α) (e : Nat × Option (Row α)) (id : Nat) :
    (t.restore e).rowAt? id =
      if e.1 = id ∧ id < t.symbolCount then e.2 else t.rowAt? id := by
  simp only [restore, rowAt?, symbolCount, Array.getElem?_modify]
  by_cases h : e.1 = id
  · by_cases hlt : id < t.slots.size <;> simp [h, hlt]
  · simp [h]

/-- Putting slots back changes neither the kinds nor the count, and leaves no journal
where there is none. -/
theorem foldl_restore_keeps (saved : List (Nat × Option (Row α))) (t : Tableau α) :
    (saved.foldl restore t).symbolCount = t.symbolCount ∧
      (∀ id, (saved.foldl restore t).kindAt? id = t.kindAt? id) ∧
      (saved.foldl restore t).basicCount = t.basicCount ∧
      (saved.foldl restore t).journal = t.journal := by
  induction saved generalizing t with
  | nil => exact ⟨rfl, fun _ => rfl, rfl, rfl⟩
  | cons e rest ih =>
      obtain ⟨hcount, hkinds, hbasic, hjournal⟩ := ih (t.restore e)
      exact ⟨hcount.trans (symbolCount_restore t e),
        fun id => (hkinds id).trans (kindAt?_restore t e id), hbasic, hjournal⟩

/-- Putting back slots that exist is no fault. -/
theorem faulted_foldl_restore {saved : List (Nat × Option (Row α))} {t : Tableau α}
    (h : ∀ e ∈ saved, e.1 < t.symbolCount) : (saved.foldl restore t).faulted = t.faulted := by
  induction saved generalizing t with
  | nil => rfl
  | cons e rest ih =>
      have he : e.1 < t.symbolCount := h e List.mem_cons_self
      have hrest : ∀ d ∈ rest, d.1 < (t.restore e).symbolCount := fun d hd => by
        rw [symbolCount_restore]
        exact h d (List.mem_cons_of_mem e hd)
      rw [List.foldl_cons, ih hrest]
      simp [restore, he]

/-- Restoring rows of one origin leaves at every slot the row of the origin if
it was saved, and what was there if not. -/
theorem rowAt?_foldl_restore {origin : Nat → Option (Row α)}
    {saved : List (Nat × Option (Row α))} (hs : ∀ e ∈ saved, e.2 = origin e.1)
    (t : Tableau α) {id : Nat} (hid : id < t.symbolCount)
    (hu : (∀ e ∈ saved, e.1 ≠ id) → t.rowAt? id = origin id) :
    (saved.foldl restore t).rowAt? id = origin id := by
  induction saved generalizing t with
  | nil => exact hu (by simp)
  | cons e rest ih =>
      rw [List.foldl_cons]
      refine ih (fun d hd => hs d (List.mem_cons_of_mem e hd)) _ ?_ ?_
      · rwa [symbolCount_restore]
      · intro hn
        rw [rowAt?_restore]
        split
        · rename_i hc
          rw [hs e (by simp), hc.1]
        · rename_i hc
          refine hu ?_
          intro d hd
          rcases List.mem_cons.mp hd with rfl | hd
          · exact fun he => hc ⟨he, hid⟩
          · exact hn d hd

theorem size_take_slots (slots : Array (Slot α)) (n : Nat) :
    (slots.take n).size = min n slots.size := by
  rw [Array.take_eq_extract, Array.size_extract, Nat.sub_zero]

theorem getElem?_take_slots (slots : Array (Slot α)) (n id : Nat) :
    (slots.take n)[id]? = if id < n then slots[id]? else none := by
  rw [← Array.getElem?_toList, Array.take_eq_extract, Array.toList_extract,
    List.extract_eq_take_drop, List.getElem?_take]
  simp

/-- A rollback gives the earlier tableau back, with no journal.  It sets no mark. -/
theorem Recalls.rollback_eq {t t₀ : Tableau α} (h : t.Recalls t₀) :
    t.rollback = { t₀ with journal := none, faulted := t.faulted } := by
  obtain ⟨j, hj⟩ := h
  set cut : Tableau α :=
    { t with slots := t.slots.take j.symbols, basicCount := j.basicCount, journal := none }
    with hcut
  have hsize : cut.symbolCount = t₀.symbolCount := by
    rw [hcut, symbolCount, size_take_slots, hj.symbols]
    exact Nat.min_eq_left hj.symbolCount_le
  have hkind : ∀ id, cut.kindAt? id = t₀.kindAt? id := fun id => by
    rw [hcut, kindAt?, getElem?_take_slots, hj.symbols]
    split
    · rename_i hid
      exact hj.kinds id hid
    · rename_i hid
      exact (kindAt?_eq_none_iff.mpr (Nat.le_of_not_lt hid)).symm
  obtain ⟨hcount, hkinds, hbasic, hjournal⟩ := foldl_restore_keeps j.saved cut
  have hrows : ∀ id, (j.saved.foldl restore cut).rowAt? id = t₀.rowAt? id := fun id => by
    by_cases hid : id < t₀.symbolCount
    · refine rowAt?_foldl_restore (fun e he => (hj.saved e he).2) cut (hsize ▸ hid) (fun hn => ?_)
      rw [hcut, rowAt?, getElem?_take_slots, hj.symbols, if_pos hid]
      exact hj.unsaved id hid hn
    · have hle := Nat.le_of_not_lt hid
      rw [rowAt?_eq_none_of_le hle, rowAt?_eq_none_of_le (by rwa [hcount, hsize])]
  have hrollback : t.rollback = j.saved.foldl restore cut := by
    unfold rollback
    rw [hj.journal]
  rw [hrollback]
  refine eq_of_slots (slots_ext (fun id => (hkinds id).trans (hkind id)) hrows)
    (hbasic.trans hj.basicCount) hjournal ?_
  exact faulted_foldl_restore (fun e he => hsize ▸ (hj.saved e he).1)

end Rollback

section Padding

/-- The tableau with unused symbols at the end. -/
def pad (t : Tableau α) (kinds : List SymbolKind) : Tableau α :=
  { t with slots := t.slots ++ (kinds.map (fun kind => ⟨kind, none⟩)).toArray }

/-- One tableau is another one with unused symbols at the end. -/
def Pads (u t : Tableau α) : Prop :=
  ∃ kinds, u = t.pad kinds

theorem Pads.refl (t : Tableau α) : t.Pads t :=
  ⟨[], by simp [pad]⟩

theorem Pads.trans {t u v : Tableau α} (h : v.Pads u) (h' : u.Pads t) : v.Pads t := by
  obtain ⟨ks, rfl⟩ := h
  obtain ⟨ks', rfl⟩ := h'
  exact ⟨ks' ++ ks, by simp [pad]⟩

theorem pads_newSymbol (t : Tableau α) (kind : SymbolKind) :
    (t.newSymbol kind).2.Pads t :=
  ⟨[kind], by simp [pad, newSymbol]⟩

theorem Pads.journal_eq {t u : Tableau α} (h : u.Pads t) : u.journal = t.journal := by
  obtain ⟨ks, rfl⟩ := h
  rfl

theorem Pads.basicCount_eq {t u : Tableau α} (h : u.Pads t) : u.basicCount = t.basicCount := by
  obtain ⟨ks, rfl⟩ := h
  rfl

theorem Pads.faulted_eq {t u : Tableau α} (h : u.Pads t) : u.faulted = t.faulted := by
  obtain ⟨ks, rfl⟩ := h
  rfl

theorem Pads.rowAt?_eq {t u : Tableau α} (h : u.Pads t) (id : Nat) :
    u.rowAt? id = t.rowAt? id := by
  obtain ⟨ks, rfl⟩ := h
  simp only [pad, rowAt?, Array.getElem?_append]
  split
  · rfl
  · rename_i hge
    rw [Array.getElem?_eq_none (Nat.le_of_not_lt hge)]
    simp only [List.getElem?_toArray, List.getElem?_map, Option.bind_map]
    cases ks[id - t.slots.size]? <;> rfl

theorem Pads.kindAt?_eq {t u : Tableau α} (h : u.Pads t) {id : Nat}
    (hid : id < t.symbolCount) : u.kindAt? id = t.kindAt? id := by
  obtain ⟨ks, rfl⟩ := h
  simp only [pad, kindAt?, Array.getElem?_append]
  rw [if_pos (by exact hid)]

theorem Pads.symbolCount_le {t u : Tableau α} (h : u.Pads t) :
    t.symbolCount ≤ u.symbolCount := by
  obtain ⟨ks, rfl⟩ := h
  simp [pad, symbolCount]

theorem Pads.knows {t u : Tableau α} (h : u.Pads t) {x : Symbol} (hx : t.Knows x) :
    u.Knows x :=
  (h.kindAt?_eq hx.id_lt).trans hx

theorem Pads.mem_basics_iff {t u : Tableau α} (h : u.Pads t) {b : Symbol × Row α} :
    b ∈ u.basics ↔ b ∈ t.basics := by
  obtain ⟨x, r⟩ := b
  rw [Tableau.mem_basics_iff, Tableau.mem_basics_iff, row?, row?, h.rowAt?_eq]
  refine and_congr_left (fun hr => ?_)
  rw [Knows, Knows, h.kindAt?_eq (lt_of_rowAt? hr)]

end Padding

end Tableau
end Simplex
end Tether
