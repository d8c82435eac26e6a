import Mathlib.Data.Finset.Card
import Tether.Proofs.Tableau.Journal

/-!
# Counting basic symbols

The numbers of the basic symbols form a finite set, and every operation is
described by what it does to the set.  A tableau is tallied if the count that it
keeps is the number of its rows, and intact if no operation has marked it as
faulted besides.  An intact tableau stays intact as long as rows are given to
symbols that have slots: a row that is dropped is counted, so the count is not zero.
-/

namespace Tether
namespace Simplex
namespace Tableau

variable {α : Type} {t u : Tableau α} {x : Symbol}

section Numbers

/-- The numbers of the basic symbols. -/
def basicNumbers (t : Tableau α) : Finset Nat :=
  (Finset.range t.symbolCount).filter (fun id => (t.rowAt? id).isSome)

theorem mem_basicNumbers {id : Nat} : id ∈ t.basicNumbers ↔ (t.rowAt? id).isSome = true := by
  rw [basicNumbers, Finset.mem_filter, Finset.mem_range]
  refine and_iff_right_of_imp (fun h => ?_)
  obtain ⟨r, hr⟩ := Option.isSome_iff_exists.mp h
  exact lt_of_rowAt? hr

theorem id_mem_basicNumbers : x.id ∈ t.basicNumbers ↔ t.isBasic x = true :=
  mem_basicNumbers

/-- There are as many rows as numbers of basic symbols. -/
theorem length_basics (t : Tableau α) : t.basics.length = t.basicNumbers.card := by
  have hnodup : (t.basics.map (·.1.id)).Nodup :=
    List.pairwise_map.mpr (t.pairwise_basics.imp (fun h => Nat.ne_of_lt h))
  have hset : (t.basics.map (·.1.id)).toFinset = t.basicNumbers := by
    ext id
    rw [List.mem_toFinset, List.mem_map, mem_basicNumbers]
    constructor
    · rintro ⟨b, hb, rfl⟩
      exact Option.isSome_iff_exists.mpr ⟨b.2, (mem_basics_iff.mp hb).2⟩
    · intro h
      obtain ⟨r, hr⟩ := Option.isSome_iff_exists.mp h
      obtain ⟨x, rfl, hk⟩ := exists_knows_of_rowAt? hr
      exact ⟨(x, r), mem_basics_iff.mpr ⟨hk, hr⟩, rfl⟩
  rw [← hset, List.toFinset_card_of_nodup hnodup, List.length_map]

/-- Which symbols are basic is all that matters to the numbers. -/
theorem basicNumbers_congr (h : ∀ id, (u.rowAt? id).isSome = (t.rowAt? id).isSome) :
    u.basicNumbers = t.basicNumbers := by
  ext id
  rw [mem_basicNumbers, mem_basicNumbers, h]

theorem basicNumbers_insert (hx : x.id < t.symbolCount) (r : Row α) :
    (t.insert x r).basicNumbers = Insert.insert x.id t.basicNumbers := by
  ext id
  rw [Finset.mem_insert, mem_basicNumbers, mem_basicNumbers, rowAt?_insert]
  by_cases hid : x.id = id
  · subst hid
    simp [hx]
  · simp [hid, Ne.symm hid]

theorem basicNumbers_erase (t : Tableau α) (x : Symbol) :
    (t.erase x).basicNumbers = t.basicNumbers.erase x.id := by
  ext id
  rw [Finset.mem_erase, mem_basicNumbers, mem_basicNumbers, rowAt?_erase]
  by_cases hid : x.id = id
  · simp [hid]
  · simp [hid, Ne.symm hid]

end Numbers

section Tally

/-- The count of basic symbols is the number of rows. -/
def Tallied (t : Tableau α) : Prop :=
  t.basicCount = t.basics.length

/-- The count of basic symbols is the number of rows, and no operation has failed. -/
structure Intact (t : Tableau α) : Prop where
  tallied : t.Tallied
  faultless : t.faulted = false

theorem tallied_iff : t.Tallied ↔ t.basicCount = t.basicNumbers.card := by
  rw [Tallied, length_basics]

/-- A row that can be dropped is counted. -/
theorem Tallied.pos (h : t.Tallied) (hx : t.isBasic x = true) : 0 < t.basicCount := by
  rw [tallied_iff.mp h]
  exact Finset.card_pos.mpr ⟨x.id, id_mem_basicNumbers.mpr hx⟩

theorem intact_empty : (empty : Tableau α).Intact :=
  ⟨rfl, rfl⟩

/-- A change that keeps the count, the basic symbols and the mark keeps a tableau intact. -/
theorem Intact.congr (h : t.Intact) (hc : u.basicCount = t.basicCount)
    (hf : u.faulted = t.faulted) (hr : ∀ id, (u.rowAt? id).isSome = (t.rowAt? id).isSome) :
    u.Intact := by
  refine ⟨tallied_iff.mpr ?_, hf.trans h.faultless⟩
  rw [hc, tallied_iff.mp h.tallied, basicNumbers_congr hr]

theorem Intact.insert (h : t.Intact) (hx : x.id < t.symbolCount) (r : Row α) :
    (t.insert x r).Intact := by
  have hcount : (t.insert x r).basicCount =
      if t.isBasic x then t.basicCount else t.basicCount + 1 := by
    simp only [Tableau.insert, isBasic_save, basicCount_save]
  refine ⟨tallied_iff.mpr ?_, by simp [faulted_insert, h.faultless, hx]⟩
  rw [hcount, basicNumbers_insert hx, tallied_iff.mp h.tallied]
  by_cases hb : t.isBasic x = true
  · rw [if_pos hb, Finset.insert_eq_of_mem (id_mem_basicNumbers.mpr hb)]
  · rw [if_neg hb, Finset.card_insert_of_notMem (mt id_mem_basicNumbers.mp hb)]

theorem Intact.erase (h : t.Intact) (x : Symbol) : (t.erase x).Intact := by
  have hcount : (t.erase x).basicCount =
      if t.isBasic x then t.basicCount - 1 else t.basicCount := by
    simp only [Tableau.erase, isBasic_save, basicCount_save]
  refine ⟨tallied_iff.mpr ?_, ?_⟩
  · rw [hcount, basicNumbers_erase, tallied_iff.mp h.tallied]
    by_cases hb : t.isBasic x = true
    · rw [if_pos hb, Finset.card_erase_of_mem (id_mem_basicNumbers.mpr hb)]
    · rw [if_neg hb, Finset.erase_eq_of_notMem (mt id_mem_basicNumbers.mp hb)]
  · rw [faulted_erase, h.faultless, Bool.false_or, Bool.and_eq_false_imp]
    exact fun hb => beq_eq_false_iff_ne.mpr (Nat.ne_of_gt (h.tallied.pos hb))

theorem Intact.modify (h : t.Intact) (x : Symbol) (f : Row α → Row α) :
    (t.modify x f).Intact := by
  refine h.congr (basicCount_save t x.id) (faulted_modify t x f) (fun id => ?_)
  rw [rowAt?_modify]
  split
  · exact Option.isSome_map
  · rfl

theorem Intact.modifyMentioning (h : t.Intact) (x : Symbol) (f : Symbol → Row α → Row α) :
    (t.modifyMentioning x f).Intact :=
  modifyMentioning_induction h (fun _ b hu => hu.modify b (f b))

theorem Intact.of_pads (h : t.Intact) (hp : u.Pads t) : u.Intact :=
  h.congr hp.basicCount_eq hp.faulted_eq (fun id => by rw [hp.rowAt?_eq])

theorem Intact.openJournal (h : t.Intact) : t.openJournal.Intact :=
  ⟨h.tallied, h.faultless⟩

theorem Intact.commit (h : t.Intact) : t.commit.Intact :=
  ⟨h.tallied, h.faultless⟩

/-- A rollback gives an intact tableau back, if nothing has failed since. -/
theorem Intact.rollback (h : t.Intact) (hr : u.Recalls t) (hf : u.faulted = false) :
    u.rollback.Intact := by
  rw [hr.rollback_eq]
  exact ⟨h.tallied, hf⟩

end Tally

end Tableau
end Simplex
end Tether
