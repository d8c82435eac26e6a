import Mathlib.Data.List.Perm.Basic
import Tether.Proofs.Renumbering.Rows
import Tether.Proofs.Tableau.Journal

/-!
# Tableaus under a renumbering

A tableau is another one with a gap opened if both hold the same rows, up to
the numbering, and nothing lies in the gap.  The gap must lie below the next
new symbol, so that both number their new symbols alike.  Every operation
keeps this, journals and rollbacks included.
-/

namespace Tether
namespace Gap

open Simplex

variable {α : Type}

section Opening

/-- The journal once the gap is opened. -/
def journal (g : Gap) (j : Journal α) : Journal α :=
  ⟨g.number j.symbols, j.basicCount,
    j.saved.map (fun e => (g.number e.1, e.2.map g.row))⟩

/-- One tableau is another one with the gap opened. -/
structure Opens (g : Gap) (t u : Tableau α) : Prop where
  base_le : g.base ≤ t.symbolCount
  symbolCount : u.symbolCount = t.symbolCount + g.width
  kinds : ∀ id, u.kindAt? (g.number id) = t.kindAt? id
  rows : ∀ id, u.rowAt? (g.number id) = (t.rowAt? id).map g.row
  unused : ∀ id, g.base ≤ id → id < g.base + g.width → u.rowAt? id = none
  basicCount : u.basicCount = t.basicCount
  journal : u.journal = t.journal.map g.journal
  journal_base : ∀ j ∈ t.journal, g.base ≤ j.symbols
  faulted : u.faulted = t.faulted

variable {g : Gap} {t u : Tableau α}

theorem opens_empty : Opens ⟨0, 0⟩ (Tableau.empty : Tableau α) .empty := by
  refine ⟨Nat.le_refl _, rfl, ?_, ?_, ?_, rfl, rfl, ?_, rfl⟩
  · intro id
    simp [Tableau.kindAt?, Tableau.empty]
  · intro id
    simp [Tableau.rowAt?, Tableau.empty]
  · intro id
    simp [Tableau.rowAt?, Tableau.empty]
  · intro j hj
    cases hj

theorem Opens.symbolCount_eq (h : g.Opens t u) :
    u.symbolCount = g.number t.symbolCount := by
  rw [h.symbolCount, g.number_of_le h.base_le]

theorem Opens.number_lt_iff (h : g.Opens t u) {id : Nat} :
    g.number id < u.symbolCount ↔ id < t.symbolCount := by
  rw [h.symbolCount_eq, g.number_lt_iff]

end Opening

section Reading

variable {g : Gap} {t u : Tableau α}

theorem Opens.row?_eq (h : g.Opens t u) (x : Symbol) :
    u.row? (g.symbol x) = (t.row? x).map g.row :=
  h.rows x.id

theorem Opens.isBasic_eq (h : g.Opens t u) (x : Symbol) :
    u.isBasic (g.symbol x) = t.isBasic x := by
  simp [Tableau.isBasic, h.row?_eq]

theorem Opens.knows_iff (h : g.Opens t u) {x : Symbol} :
    u.Knows (g.symbol x) ↔ t.Knows x := by
  unfold Tableau.Knows
  rw [← h.kinds]
  rfl

/-- Every basic symbol is a basic symbol once the gap is opened, and there are
no others. -/
theorem Opens.mem_basics_iff (h : g.Opens t u) {b : Symbol × Row α} :
    b ∈ u.basics ↔ b ∈ t.basics.map (fun b => (g.symbol b.1, g.row b.2)) := by
  obtain ⟨y, q⟩ := b
  simp only [Tableau.mem_basics_iff, List.mem_map, Prod.exists, Prod.mk.injEq]
  constructor
  · rintro ⟨hk, hq⟩
    have hgap : y.id < g.base ∨ g.base + g.width ≤ y.id := by
      by_contra hn
      have : u.row? y = none := h.unused y.id (by omega) (by omega)
      rw [hq] at this
      cases this
    obtain ⟨id, hid⟩ := g.exists_number_eq hgap
    have hy : g.symbol ⟨id, y.kind⟩ = y := by
      cases y
      simp_all [symbol]
    rw [← hy, h.knows_iff] at hk
    rw [← hy, h.row?_eq] at hq
    obtain ⟨r, hr, rfl⟩ := Option.map_eq_some_iff.mp hq
    exact ⟨⟨id, y.kind⟩, r, ⟨hk, hr⟩, hy, rfl⟩
  · rintro ⟨x, r, ⟨hk, hr⟩, rfl, rfl⟩
    exact ⟨h.knows_iff.mpr hk, by rw [h.row?_eq, hr, Option.map_some]⟩

theorem Opens.basics_eq (h : g.Opens t u) :
    u.basics = t.basics.map (fun b => (g.symbol b.1, g.row b.2)) := by
  refine Tableau.eq_of_ascending (f := fun b => b.1.id) u.pairwise_basics ?_
    (fun b => h.mem_basics_iff)
  exact List.pairwise_map.mpr (t.pairwise_basics.imp (fun hab => g.number_lt_iff.mpr hab))

theorem Opens.mentioning_eq (h : g.Opens t u) (x : Symbol) :
    u.mentioning (g.symbol x) = (t.mentioning x).map g.symbol := by
  simp [Tableau.mentioning, h.basics_eq, List.filter_map, Function.comp_def]

end Reading

section Changing

variable {g : Gap} {t u : Tableau α}

theorem Opens.openJournal (h : g.Opens t u) : g.Opens t.openJournal u.openJournal where
  base_le := h.base_le
  symbolCount := h.symbolCount
  kinds := h.kinds
  rows := h.rows
  unused := h.unused
  basicCount := h.basicCount
  journal := by
    simp [Tableau.openJournal, Gap.journal, h.symbolCount_eq, h.basicCount]
  journal_base := by
    intro j hj
    cases hj
    exact h.base_le
  faulted := h.faulted

theorem Opens.commit (h : g.Opens t u) : g.Opens t.commit u.commit :=
  ⟨h.base_le, h.symbolCount, h.kinds, h.rows, h.unused, h.basicCount, rfl,
    fun j hj => (by cases hj), h.faulted⟩

theorem Opens.newSymbol (h : g.Opens t u) (kind : SymbolKind) :
    (u.newSymbol kind).1 = g.symbol (t.newSymbol kind).1 ∧
      g.Opens (t.newSymbol kind).2 (u.newSymbol kind).2 := by
  refine ⟨congrArg (Symbol.mk · kind) h.symbolCount_eq, ?_, ?_, ?_, ?_, ?_, h.basicCount,
    h.journal, h.journal_base, h.faulted⟩
  · rw [Tableau.symbolCount_newSymbol]
    exact Nat.le_succ_of_le h.base_le
  · rw [Tableau.symbolCount_newSymbol, Tableau.symbolCount_newSymbol, h.symbolCount]
    omega
  · intro id
    simp only [Tableau.kindAt?_newSymbol, h.symbolCount_eq, g.number_injective.eq_iff, h.kinds]
  · intro id
    rw [Tableau.rowAt?_newSymbol, Tableau.rowAt?_newSymbol, h.rows]
  · intro id hb hw
    rw [Tableau.rowAt?_newSymbol]
    exact h.unused id hb hw

/-- A number is saved in a journal if and only if it is saved once the gap is opened. -/
theorem any_saved_journal (g : Gap) (j : Journal α) (id : Nat) :
    (g.journal j).saved.any (fun e => e.1 == g.number id) = j.saved.any (fun e => e.1 == id) := by
  simp only [Gap.journal, List.any_map]
  congr 1
  funext e
  rw [Function.comp_apply, Bool.eq_iff_iff, beq_iff_eq, beq_iff_eq, g.number_injective.eq_iff]

theorem Opens.journal_save (h : g.Opens t u) (id : Nat) :
    (u.save (g.number id)).journal = (t.save id).journal.map g.journal ∧
      ∀ j ∈ (t.save id).journal, g.base ≤ j.symbols := by
  have hju := h.journal
  have hjb := h.journal_base
  unfold Tableau.save
  cases ht : t.journal with
  | none =>
      rw [ht] at hju
      rw [hju]
      exact ⟨hju.trans (by rw [ht]), hjb⟩
  | some j =>
      rw [ht] at hju hjb
      have hlt : decide (g.number id < (g.journal j).symbols) = decide (id < j.symbols) :=
        decide_eq_decide.mpr g.number_lt_iff
      rw [hju]
      simp only [Option.map_some, g.any_saved_journal, hlt]
      split
      · refine ⟨?_, fun k hk => ?_⟩
        · simp [Gap.journal, h.rows]
        · cases hk
          exact hjb j rfl
      · exact ⟨hju.trans (by rw [ht]), by rw [ht]; exact hjb⟩

theorem Opens.save (h : g.Opens t u) (id : Nat) : g.Opens (t.save id) (u.save (g.number id)) := by
  obtain ⟨hjournal, hbase⟩ := h.journal_save id
  refine ⟨?_, ?_, ?_, ?_, ?_, ?_, hjournal, hbase, ?_⟩
  · rw [Tableau.symbolCount_save]
    exact h.base_le
  · rw [Tableau.symbolCount_save, Tableau.symbolCount_save]
    exact h.symbolCount
  · intro k
    rw [Tableau.kindAt?_save, Tableau.kindAt?_save]
    exact h.kinds k
  · intro k
    rw [Tableau.rowAt?_save, Tableau.rowAt?_save]
    exact h.rows k
  · intro k
    rw [Tableau.rowAt?_save]
    exact h.unused k
  · rw [Tableau.basicCount_save, Tableau.basicCount_save]
    exact h.basicCount
  · rw [Tableau.faulted_save, Tableau.faulted_save]
    exact h.faulted

theorem Opens.modify (h : g.Opens t u) (x : Symbol) {f f' : Row α → Row α}
    (hf : ∀ r, f' (g.row r) = g.row (f r)) :
    g.Opens (t.modify x f) (u.modify (g.symbol x) f') := by
  have hs : g.Opens (t.save x.id) (u.save (g.symbol x).id) := h.save x.id
  refine ⟨?_, ?_, ?_, ?_, ?_, hs.basicCount, hs.journal, hs.journal_base, hs.faulted⟩
  · rw [Tableau.symbolCount_modify]
    exact h.base_le
  · rw [Tableau.symbolCount_modify, Tableau.symbolCount_modify]
    exact h.symbolCount
  · intro id
    rw [Tableau.kindAt?_modify, Tableau.kindAt?_modify]
    exact h.kinds id
  · intro id
    have hid : (g.symbol x).id = g.number id ↔ x.id = id := g.number_injective.eq_iff
    simp only [Tableau.rowAt?_modify, h.rows, hid]
    split
    · rw [Option.map_map, Option.map_map]
      congr 1
      funext r
      exact hf r
    · rfl
  · intro id hb hw
    have hrow : u.rowAt? id = none := h.unused id hb hw
    rw [Tableau.rowAt?_modify, hrow]
    split <;> rfl

theorem Opens.insert (h : g.Opens t u) (x : Symbol) (r : Row α) :
    g.Opens (t.insert x r) (u.insert (g.symbol x) (g.row r)) := by
  have hs : g.Opens (t.save x.id) (u.save (g.symbol x).id) := h.save x.id
  refine ⟨?_, ?_, ?_, ?_, ?_, ?_, hs.journal, hs.journal_base, ?_⟩
  · rw [Tableau.symbolCount_insert]
    exact h.base_le
  · rw [Tableau.symbolCount_insert, Tableau.symbolCount_insert]
    exact h.symbolCount
  · intro id
    rw [Tableau.kindAt?_insert, Tableau.kindAt?_insert]
    exact h.kinds id
  · intro id
    have hid : (g.symbol x).id = g.number id ↔ x.id = id := g.number_injective.eq_iff
    simp only [Tableau.rowAt?_insert, h.rows, h.number_lt_iff, hid]
    split <;> rfl
  · intro id hb hw
    rw [Tableau.rowAt?_insert, if_neg]
    · exact h.unused id hb hw
    · rintro ⟨he, -⟩
      have := g.number_notMem x.id
      simp only [symbol] at he
      omega
  · simp only [Tableau.insert, hs.isBasic_eq x, hs.basicCount]
  · simp only [Tableau.insert, hs.faulted]
    exact congrArg (fun b => (t.save x.id).faulted || !b) (decide_eq_decide.mpr hs.number_lt_iff)

theorem Opens.erase (h : g.Opens t u) (x : Symbol) :
    g.Opens (t.erase x) (u.erase (g.symbol x)) := by
  have hs : g.Opens (t.save x.id) (u.save (g.symbol x).id) := h.save x.id
  refine ⟨?_, ?_, ?_, ?_, ?_, ?_, hs.journal, hs.journal_base, ?_⟩
  · rw [Tableau.symbolCount_erase]
    exact h.base_le
  · rw [Tableau.symbolCount_erase, Tableau.symbolCount_erase]
    exact h.symbolCount
  · intro id
    rw [Tableau.kindAt?_erase, Tableau.kindAt?_erase]
    exact h.kinds id
  · intro id
    have hid : (g.symbol x).id = g.number id ↔ x.id = id := g.number_injective.eq_iff
    simp only [Tableau.rowAt?_erase, h.rows, hid]
    split <;> rfl
  · intro id hb hw
    rw [Tableau.rowAt?_erase]
    split
    · rfl
    · exact h.unused id hb hw
  · simp only [Tableau.erase, hs.isBasic_eq x, hs.basicCount]
  · simp only [Tableau.erase, hs.isBasic_eq x, hs.basicCount, hs.faulted]

theorem Opens.modifyMentioning (h : g.Opens t u) (x : Symbol) {f f' : Row α → Row α}
    (hf : ∀ r, f' (g.row r) = g.row (f r)) :
    g.Opens (t.modifyMentioning x (fun _ => f))
      (u.modifyMentioning (g.symbol x) (fun _ => f')) := by
  unfold Tableau.modifyMentioning
  rw [h.mentioning_eq, List.foldl_map]
  exact List.foldl_rel h (fun y _ _ _ hy => hy.modify y hf)

end Changing

section Rollback

variable {g : Gap}

theorem Opens.restore {t u : Tableau α} (h : g.Opens t u) (e : Nat × Option (Row α)) :
    g.Opens (t.restore e) (u.restore (g.number e.1, e.2.map g.row)) := by
  refine ⟨?_, ?_, ?_, ?_, ?_, h.basicCount, h.journal, h.journal_base, ?_⟩
  · rw [Tableau.symbolCount_restore]
    exact h.base_le
  · rw [Tableau.symbolCount_restore, Tableau.symbolCount_restore]
    exact h.symbolCount
  · intro id
    rw [Tableau.kindAt?_restore, Tableau.kindAt?_restore]
    exact h.kinds id
  · intro id
    simp only [Tableau.rowAt?_restore, h.rows, h.number_lt_iff, g.number_injective.eq_iff]
    split <;> rfl
  · intro id hb hw
    rw [Tableau.rowAt?_restore, if_neg]
    · exact h.unused id hb hw
    · rintro ⟨he, -⟩
      have := g.number_notMem e.1
      simp only at he
      omega
  · simp only [Tableau.restore, h.faulted, h.number_lt_iff]

theorem Opens.foldl_restore {t u : Tableau α} (h : g.Opens t u)
    (saved : List (Nat × Option (Row α))) :
    g.Opens (saved.foldl Tableau.restore t)
      ((saved.map (fun e => (g.number e.1, e.2.map g.row))).foldl Tableau.restore u) := by
  induction saved generalizing t u with
  | nil => exact h
  | cons e rest ih => exact ih (h.restore e)

/-- Dropping the symbols made since a journal was opened keeps the gap. -/
theorem Opens.take {t u : Tableau α} (h : g.Opens t u) {n : Nat} (hn : g.base ≤ n) (count : Nat) :
    g.Opens { t with slots := t.slots.take n, basicCount := count, journal := none }
      { u with slots := u.slots.take (g.number n), basicCount := count, journal := none } := by
  have hb := h.base_le
  have hc := h.symbolCount
  have hnum := g.number_of_le hn
  unfold Tableau.symbolCount at hb hc
  refine ⟨?_, ?_, ?_, ?_, ?_, rfl, rfl, by simp, h.faulted⟩
  · simp only [Tableau.symbolCount, Tableau.size_take_slots]
    omega
  · simp only [Tableau.symbolCount, Tableau.size_take_slots]
    omega
  · intro id
    simp only [Tableau.kindAt?, Tableau.getElem?_take_slots, g.number_lt_iff]
    split
    · exact h.kinds id
    · rfl
  · intro id
    simp only [Tableau.rowAt?, Tableau.getElem?_take_slots, g.number_lt_iff]
    split
    · exact h.rows id
    · rfl
  · intro id hb hw
    simp only [Tableau.rowAt?, Tableau.getElem?_take_slots]
    split
    · exact h.unused id hb hw
    · rfl

theorem Opens.rollback {t u : Tableau α} (h : g.Opens t u) : g.Opens t.rollback u.rollback := by
  have hj := h.journal
  unfold Tableau.rollback
  cases ht : t.journal with
  | none =>
      rw [ht] at hj
      rw [hj]
      exact h
  | some j =>
      rw [ht] at hj
      rw [hj]
      exact (h.take (h.journal_base j ht) j.basicCount).foldl_restore j.saved

end Rollback

end Gap
end Tether
