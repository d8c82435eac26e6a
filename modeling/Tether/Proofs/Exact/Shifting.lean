import Tether.Proofs.Exact.Dual
import Tether.Proofs.Solver.LedgerRuns

/-!
# Shifting rows in place

A suggestion does not touch the coefficients of any row: it moves the solutions
along one symbol of an edit constraint.  The objective stays settled, and the
restricted rows that have become negative are on record.
-/

namespace Tether

open Simplex

section Moving

variable {tag : Tag} {y : Symbol} {d δ : Rat}

/-- Moving a symbol of a tag by one difference moves what the symbols make up for
by another one. -/
def Tag.Moves (tag : Tag) (y : Symbol) (d δ : Rat) : Prop :=
  y = tag.marker ∧ d = δ ∨ tag.other = some y ∧ d = -δ

theorem Tag.Moves.mem_symbols (h : tag.Moves y d δ) : y ∈ tag.symbols := by
  rcases h with ⟨rfl, -⟩ | ⟨ho, -⟩
  · simp [symbols]
  · simp [symbols, ho]

end Moving

namespace Solver

variable {s u : Solver Rat} {x : Symbol} {tag : Tag} {d : Rat}

/-- A solver whose solutions are those of another one, moved along a symbol. -/
structure Shifted (s : Solver Rat) (x : Symbol) (d : Rat) (u : Solver Rat) : Prop where
  layered : u.Layered
  objective : u.objective = s.objective
  books : u.books = s.books
  knows : ∀ y, u.tableau.Knows y ↔ s.tableau.Knows y
  covered : u.Covered
  recorded : u.Recorded
  solves : ∀ σ, u.tableau.Solves σ ↔ s.tableau.Solves (Function.update σ x (σ x + d))

section Rows

variable {offset : Nat → Row Rat → Rat}

theorem shift_zero (r : Row Rat) : r.shift 0 = r :=
  congrArg (fun k => Row.mk k r.cells) (add_zero r.constant)

theorem constant_shift (r : Row Rat) (d : Rat) : (r.shift d).constant = r.constant + d := by
  rfl

/-- The rows of one solver are those of another one, shifted. -/
def RowsShifted (s u : Solver Rat) (offset : Nat → Row Rat → Rat) : Prop :=
  ∀ b, b ∈ u.tableau.basics ↔
    ∃ r, (b.1, r) ∈ s.tableau.basics ∧ b.2 = r.shift (offset b.1.id r)

theorem RowsShifted.layered (hb : RowsShifted s u offset) (h : s.Layered) (hp : u.Proper)
    (ho : u.objective = s.objective) (ha : u.artificial = s.artificial)
    (hzero : ∀ b ∈ s.tableau.basics, b.1.tier = 0 → offset b.1.id b.2 = 0) : u.Layered where
  proper := hp
  rows := by
    intro b hbu
    obtain ⟨r, hr, he⟩ := (hb b).mp hbu
    have hw := h.rows _ hr
    rw [he]
    refine ⟨hw.reduced.shift _, hw.tiers, fun hn => ?_⟩
    rw [constant_shift, hw.constant hn, hzero _ hr hn, add_zero]
  objective := ho ▸ h.objective
  artificial := ha ▸ h.artificial

/-- If the offset of every row is what moving a symbol does to its equation, then
the solutions are moved. -/
theorem RowsShifted.solves (hb : RowsShifted s u offset) {σ : Symbol → Rat}
    (heq : ∀ b ∈ s.tableau.basics, σ b.1 = b.2.eval σ + offset b.1.id b.2 ↔
      Function.update σ x (σ x + d) b.1 = b.2.eval (Function.update σ x (σ x + d))) :
    u.tableau.Solves σ ↔ s.tableau.Solves (Function.update σ x (σ x + d)) := by
  constructor
  · intro hσ b hbs
    have := hσ (b.1, b.2.shift (offset b.1.id b.2)) ((hb _).mpr ⟨b.2, hbs, rfl⟩)
    rw [Row.eval_shift] at this
    exact (heq b hbs).mp this
  · intro hσ b hbu
    obtain ⟨r, hr, he⟩ := (hb b).mp hbu
    rw [he, Row.eval_shift]
    exact (heq _ hr).mpr (hσ _ hr)

end Rows

section Basic

theorem rowsShifted_shiftRow (s : Solver Rat) (x : Symbol) (d : Rat) :
    RowsShifted s (s.shiftRow x d) (fun id _ => if x.id = id then d else 0) := by
  intro b
  rw [mem_basics_shiftRow]
  by_cases hid : x.id = b.1.id
  · simp only [if_pos hid]
  · simp only [if_neg hid, shift_zero]

/-- Shifting the row of a basic symbol moves the solutions along it. -/
theorem shifted_shiftRow (h : s.Layered) (hf : s.Feasible) (hi : s.infeasible = [])
    (hk : s.tableau.Knows x) (ht : x.tier = 1) (hbasic : s.tableau.isBasic x = true) (d : Rat) :
    Shifted s x (-d) (s.shiftRow x d) := by
  have hb := rowsShifted_shiftRow s x d
  have hwork := h.proper.reworked_shiftRow hk d
  have hid : ∀ b ∈ s.tableau.basics, x.id = b.1.id → b.1 = x :=
    fun b hbs he => (Tableau.mem_basics_iff.mp hbs).1.eq_of_id_eq hk he.symm
  refine ⟨hb.layered h hwork.proper (objective_shiftRow _ _ _) (artificial_shiftRow _ _ _) ?_,
    objective_shiftRow _ _ _, hwork.books, fun y => ?_, ?_, ?_,
    fun σ => hb.solves (fun b hbs => ?_)⟩
  · intro b hbs hbt
    refine if_neg (fun he => ?_)
    rw [hid b hbs he] at hbt
    omega
  · rw [tableau_shiftRow, Tableau.Knows, Tableau.Knows, Tableau.kindAt?_modify]
  · intro b hbu hbt hlow
    obtain ⟨r, hr, he⟩ := (hb b).mp hbu
    dsimp only at he
    by_cases hx : x.id = b.1.id
    · have hbx := hid _ hr hx
      have hinf : (s.shiftRow x d).isInfeasible x = true := by
        refine isInfeasible_iff.mpr ⟨b.2, ?_, hlow⟩
        have hrow := (Tableau.mem_basics_iff.mp hbu).2
        rwa [show b.1 = x from hbx] at hrow
      rw [infeasible_shiftRow, if_pos hinf, show b.1 = x from hbx]
      simp
    · rw [he, if_neg hx, shift_zero] at hlow
      exact absurd (hf _ hr hbt) (not_le.mpr hlow)
  · intro y hy
    rw [infeasible_shiftRow, hi] at hy
    split at hy
    · rw [List.mem_singleton.mp hy]
      exact ht
    · cases hy
  · have heval := (h.proper.rows.admits hbs).eval_update
      (Option.isSome_iff_ne_none.mp hbasic) σ (σ x + -d)
    rw [heval]
    by_cases hx : x.id = b.1.id
    · rw [if_pos hx, hid b hbs hx, Function.update_self]
      constructor
      · intro he
        linarith
      · intro he
        linarith
    · have hne : b.1 ≠ x := fun he => hx (congrArg Symbol.id he.symm)
      rw [if_neg hx, Function.update_of_ne hne, add_zero]

end Basic

section Parametric

/-- Shifting the rows that mention a symbol by what they depend on it shifts every row by
that. -/
theorem rowsShifted_modifyMentioning (s : Solver Rat) (x : Symbol) (d : Rat) :
    RowsShifted s (s.modifyMentioning x (fun r => r.shift (d * r.coefficient x)))
      (fun _ r => d * r.coefficient x) := by
  refine fun b => Tableau.mem_basics_of_rows (f := fun _ r => r.shift (d * r.coefficient x))
    (kindAt?_modifyMentioning s x _) (rowAt?_modifyMentioning s x (fun r hr => ?_))
  rw [Row.coefficient_of_notMem hr, mul_zero, shift_zero]

/-- Shifting the rows that mention a parametric symbol moves the solutions along
it. -/
theorem shifted_modifyMentioning (h : s.Layered) (hf : s.Feasible) (hi : s.infeasible = [])
    (hx : s.tableau.row? x = none) (ht : x.tier = 1) (d : Rat)
    (hwork : Reworked s (s.modifyMentioning x (fun r => r.shift (d * r.coefficient x)))) :
    Shifted s x d (s.modifyMentioning x (fun r => r.shift (d * r.coefficient x))) := by
  have hzero : ∀ r : Row Rat, x ∉ r.symbols → d * r.coefficient x = 0 := by
    intro r hr
    rw [Row.coefficient_of_notMem hr, mul_zero]
  have hb := rowsShifted_modifyMentioning s x d
  refine ⟨hb.layered h hwork.proper rfl rfl ?_, rfl, rfl, fun y => ?_, ?_, ?_,
    fun σ => hb.solves (fun b hbs => ?_)⟩
  · intro b hbs hbt
    refine hzero b.2 (fun hin => ?_)
    have := (h.rows b hbs).tiers x hin
    omega
  · rw [Tableau.Knows, Tableau.Knows, kindAt?_modifyMentioning]
  · intro b hbu hbt hlow
    obtain ⟨r, hr, he⟩ := (hb b).mp hbu
    dsimp only at he
    by_cases hin : x ∈ r.symbols
    · rw [he] at hlow
      exact mem_infeasible_modifyMentioning (b := (b.1, r)) hr hin hbt hlow
    · rw [he, hzero r hin, shift_zero] at hlow
      exact absurd (hf _ hr hbt) (not_le.mpr hlow)
  · refine h.recorded_modifyMentioning ?_ ht _
    intro y hy
    rw [hi] at hy
    cases hy
  · rw [Function.update_of_ne (Tableau.ne_of_mem_basics hx hbs), (h.ordered hbs).eval_update]
    have hdiff : b.2.coefficient x * (σ x + d - σ x) = d * b.2.coefficient x := by ring
    rw [hdiff]

end Parametric

/-- However an edit constraint is shifted, the solutions move along one of its
symbols. -/
theorem shifted_shiftEdit (h : s.Layered) (hf : s.Feasible) (hi : s.infeasible = [])
    (hk : ∀ x ∈ tag.symbols, s.tableau.Knows x) (ht : ∀ x ∈ tag.symbols, x.tier = 1)
    (δ : Rat) : ∃ x d, tag.Moves x d δ ∧ Shifted s x d (s.shiftEdit tag δ) := by
  have hm : tag.marker ∈ tag.symbols := by simp [Tag.symbols]
  have hwork := h.proper.reworked_shiftEdit hk δ
  unfold shiftEdit at hwork ⊢
  split at hwork
  · rename_i hbasic
    rw [if_pos hbasic]
    have hshift := shifted_shiftRow h hf hi (hk _ hm) (ht _ hm) hbasic (-δ)
    rw [neg_neg] at hshift
    exact ⟨_, _, Or.inl ⟨rfl, rfl⟩, hshift⟩
  · rename_i hbasic
    rw [if_neg hbasic]
    have hrow : s.tableau.row? tag.marker = none := by simpa [Tableau.isBasic] using hbasic
    split at hwork
    · rename_i o ho
      obtain ⟨hother, hobasic⟩ := Option.filter_eq_some_iff.mp ho
      have hom : o ∈ tag.symbols := by simp [Tag.symbols, hother]
      exact ⟨_, _, Or.inr ⟨hother, rfl⟩,
        shifted_shiftRow h hf hi (hk o hom) (ht o hom) hobasic δ⟩
    · exact ⟨_, _, Or.inl ⟨rfl, rfl⟩, shifted_modifyMentioning h hf hi hrow (ht _ hm) δ hwork⟩

end Solver
end Tether
