import Mathlib.Logic.Function.Basic
import Tether.Simplex.Row
import Tether.Proofs.Row.Symbols

/-!
# Rows under a renumbering

Symbols that were made and never used leave a gap in the numbering.  Closing
or opening a gap renumbers the symbols and keeps their order, so every
operation on rows does the same thing before and after.  Nothing here uses a
law of arithmetic.
-/

namespace Tether

open Simplex

section Gaps

/-- A run of numbers that no symbol in use has. -/
structure Gap where
  /-- The first number of the gap. -/
  base : Nat
  /-- How many numbers the gap has. -/
  width : Nat

namespace Gap

/-- The number that a symbol has once the gap is opened. -/
def number (g : Gap) (id : Nat) : Nat :=
  if id < g.base then id else id + g.width

theorem number_lt_iff (g : Gap) {a b : Nat} : g.number a < g.number b ↔ a < b := by
  unfold number
  split <;> split <;> omega

theorem number_injective (g : Gap) : Function.Injective g.number := by
  intro a b h
  unfold number at h
  split at h <;> split at h <;> omega

theorem number_of_lt (g : Gap) {id : Nat} (h : id < g.base) : g.number id = id :=
  if_pos h

theorem number_of_le (g : Gap) {id : Nat} (h : g.base ≤ id) : g.number id = id + g.width :=
  if_neg (Nat.not_lt_of_le h)

/-- A number that is not in the gap belongs to a symbol. -/
theorem exists_number_eq (g : Gap) {id : Nat} (h : id < g.base ∨ g.base + g.width ≤ id) :
    ∃ k, g.number k = id := by
  rcases h with h | h
  · exact ⟨id, g.number_of_lt h⟩
  · exact ⟨id - g.width, by rw [g.number_of_le (by omega)]; omega⟩

theorem number_notMem (g : Gap) (id : Nat) :
    g.number id < g.base ∨ g.base + g.width ≤ g.number id := by
  unfold number
  split <;> omega

theorem compare_number (g : Gap) (a b : Nat) :
    compare (g.number a) (g.number b) = compare a b := by
  have hlt := g.number_lt_iff (a := a) (b := b)
  have heq := g.number_injective.eq_iff (a := a) (b := b)
  simp only [Nat.compare_eq_ite_lt]
  have hgt := g.number_lt_iff (a := b) (b := a)
  simp only [hlt, hgt]

/-- The symbol once the gap is opened. -/
def symbol (g : Gap) (x : Symbol) : Symbol :=
  ⟨g.number x.id, x.kind⟩

theorem symbol_injective (g : Gap) : Function.Injective g.symbol := by
  intro x y h
  obtain ⟨hn, hk⟩ := Symbol.mk.inj h
  cases x
  cases y
  exact Symbol.mk.injEq .. ▸ ⟨g.number_injective hn, hk⟩

@[simp] theorem symbol_inj (g : Gap) {x y : Symbol} : g.symbol x = g.symbol y ↔ x = y :=
  g.symbol_injective.eq_iff

@[simp] theorem symbol_beq (g : Gap) (x y : Symbol) : (g.symbol x == g.symbol y) = (x == y) := by
  rw [Bool.eq_iff_iff, beq_iff_eq, beq_iff_eq, symbol_inj]

@[simp] theorem isDummy_symbol (g : Gap) (x : Symbol) : (g.symbol x).isDummy = x.isDummy := rfl

@[simp] theorem isExternal_symbol (g : Gap) (x : Symbol) :
    (g.symbol x).isExternal = x.isExternal := rfl

@[simp] theorem isPivotable_symbol (g : Gap) (x : Symbol) :
    (g.symbol x).isPivotable = x.isPivotable := rfl

@[simp] theorem isError_symbol (g : Gap) (x : Symbol) : (g.symbol x).isError = x.isError := rfl

end Gap

end Gaps

namespace Gap

variable {α : Type}

section Rows

/-- The cell once the gap is opened. -/
def cell (g : Gap) (c : Cell α) : Cell α :=
  (g.symbol c.1, c.2)

/-- The row once the gap is opened. -/
def row (g : Gap) (r : Row α) : Row α :=
  ⟨r.constant, r.cells.map g.cell⟩

variable (g : Gap)

@[simp] theorem constant_row (r : Row α) : (g.row r).constant = r.constant := rfl

theorem cells_row (r : Row α) : (g.row r).cells = r.cells.map g.cell := rfl

@[simp] theorem isConstant_row (r : Row α) : (g.row r).isConstant = r.isConstant := by
  simp [Row.isConstant, row]

@[simp] theorem get?_row (r : Row α) (s : Symbol) : (g.row r).get? (g.symbol s) = r.get? s := by
  simp [Row.get?, row, List.find?_map, cell, Function.comp_def]

@[simp] theorem contains_row (r : Row α) (s : Symbol) :
    (g.row r).contains (g.symbol s) = r.contains s := by
  simp [Row.contains, row, List.any_map, cell, Function.comp_def]

@[simp] theorem allDummies_row (r : Row α) : (g.row r).allDummies = r.allDummies := by
  simp [Row.allDummies, row, List.all_map, cell, Function.comp_def]

theorem firstPivotable?_row (r : Row α) :
    (g.row r).firstPivotable? = r.firstPivotable?.map g.symbol := by
  simp [Row.firstPivotable?, row, List.find?_map, cell, Function.comp_def]

theorem row_erase (r : Row α) (s : Symbol) : g.row (r.erase s) = (g.row r).erase (g.symbol s) := by
  simp only [Row.erase, row, Row.mk.injEq, true_and, List.eraseP_map]
  congr 2
  funext c
  simp [cell]

/-- Candidates that are picked alike are picked under any numbering. -/
theorem filterMap_map_cell {β γ : Type} {f : β → Option (Cell α)} {f' : γ → Option (Cell α)}
    {h : β → γ} (hf : ∀ b, f' (h b) = (f b).map g.cell) (l : List β) :
    (l.map h).filterMap f' = (l.filterMap f).map g.cell := by
  rw [List.filterMap_map, List.map_filterMap]
  congr 1
  funext b
  exact hf b

end Rows

section Arithmetic

variable [Scalar α] (g : Gap)

@[simp] theorem coefficient_row (r : Row α) (s : Symbol) :
    (g.row r).coefficient (g.symbol s) = r.coefficient s := by
  simp [Row.coefficient]

theorem map_consCell (s : Symbol) (x : α) (l : List (Cell α)) :
    (Row.consCell s x l).map g.cell = Row.consCell (g.symbol s) x (l.map g.cell) := by
  unfold Row.consCell
  split <;> rfl

theorem map_insertCell (s : Symbol) (x : α) (l : List (Cell α)) :
    (Row.insertCell s x l).map g.cell = Row.insertCell (g.symbol s) x (l.map g.cell) := by
  induction l with
  | nil => exact g.map_consCell s _ []
  | cons c rest ih =>
      obtain ⟨t, y⟩ := c
      have hlt : (g.symbol s).id < (g.symbol t).id ↔ s.id < t.id := g.number_lt_iff
      simp only [Row.insertCell, List.map_cons, cell, hlt, symbol_inj]
      split
      · exact g.map_consCell s _ _
      · split
        · exact g.map_consCell s _ _
        · rw [List.map_cons, ih]
          rfl

theorem row_insert (r : Row α) (s : Symbol) (x : α) :
    g.row (r.insert s x) = (g.row r).insert (g.symbol s) x := by
  simp only [row, Row.insert, map_insertCell]

theorem row_shift (r : Row α) (x : α) : g.row (r.shift x) = (g.row r).shift x := rfl

theorem row_addRow (r other : Row α) (factor : α) :
    g.row (r.addRow other factor) = (g.row r).addRow (g.row other) factor := by
  unfold Row.addRow
  rw [cells_row, constant_row, ← row_shift, List.foldl_map]
  exact (List.foldl_hom g.row (fun q c => (g.row_insert q c.1 (c.2 * factor)).symm)).symm

theorem row_negate (r : Row α) : g.row r.negate = (g.row r).negate := by
  simp [Row.negate, row, cell, Function.comp_def]

theorem row_solveFor (r : Row α) (s : Symbol) :
    g.row (r.solveFor s) = (g.row r).solveFor (g.symbol s) := by
  simp only [Row.solveFor, get?_row, ← row_erase]
  simp [row, cell, Function.comp_def]

theorem row_exchange (r : Row α) (leaving entering : Symbol) :
    g.row (r.exchange leaving entering) =
      (g.row r).exchange (g.symbol leaving) (g.symbol entering) := by
  rw [Row.exchange, row_solveFor, row_insert]
  rfl

theorem row_substitute (r : Row α) (s : Symbol) (replacement : Row α) :
    g.row (r.substitute s replacement) =
      (g.row r).substitute (g.symbol s) (g.row replacement) := by
  unfold Row.substitute
  rw [get?_row]
  cases r.get? s with
  | none => rfl
  | some x => exact (g.row_addRow _ _ _).trans (by rw [row_erase])

end Arithmetic

section Choice

variable [Scalar α] (g : Gap)

theorem improve_cell (admits : α → Bool) (best : Option (Cell α)) (c : Cell α) :
    improve admits (best.map g.cell) (g.cell c) = (improve admits best c).map g.cell := by
  cases best with
  | none =>
      by_cases h : admits c.2 = true <;> simp [improve, cell, h]
  | some b =>
      by_cases h : Scalar.less c.2 b.2 = true <;> simp [improve, cell, h]

/-- The least candidate is the least one under any numbering. -/
theorem least?_map_cell (admits : α → Bool) (l : List (Cell α)) :
    least? admits (l.map g.cell) = (least? admits l).map g.symbol := by
  have h : (l.map g.cell).foldl (improve admits) none =
      (l.foldl (improve admits) none).map g.cell := by
    rw [List.foldl_map]
    refine List.foldl_rel (r := fun best best' => best = Option.map g.cell best') rfl ?_
    rintro c - - best rfl
    exact g.improve_cell admits best c
  unfold least?
  rw [h, Option.map_map, Option.map_map]
  rfl

end Choice

end Gap
end Tether
