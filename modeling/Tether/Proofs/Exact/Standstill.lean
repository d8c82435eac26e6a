import Tether.Proofs.Exact.Models
import Tether.Proofs.Exact.Pivots
import Tether.Proofs.Exact.Probing

/-!
# Loops that move nothing

A primal loop never raises its goal.  If no lawful solution is below where it starts, then
it cannot lower the goal either, so each of its pivots is degenerate and every symbol keeps
its value, whichever basis the loop ends at.

Probing a row whose constant is zero is such a loop: the artificial variable starts at
zero, and no lawful value is lower.
-/

namespace Tether
namespace Solver

open Simplex

variable {s t u w : Solver Rat} {goal : Goal} {leaving entering x a : Symbol}
  {r g q : Row Rat} {σ : Symbol → Rat}

section Values

theorem symbolValue_of_parametric (h : s.tableau.Parametric x) : s.symbolValue x = 0 := by
  rw [symbolValue, h.2]
  rfl

theorem symbolValue_of_row? (h : s.tableau.row? x = some r) : s.symbolValue x = r.constant := by
  rw [symbolValue, h]

/-- An admitted row is its constant at the values of the symbols. -/
theorem eval_symbolValue (h : s.tableau.Admits r) : r.eval s.symbolValue = r.constant := by
  rw [← fill_zero, h.eval_fill, Row.eval_zero]

theorem Proper.solves_symbolValue (h : s.Proper) : s.tableau.Solves s.symbolValue :=
  fill_zero s ▸ h.rows.solves_fill 0

theorem Layered.lawful_symbolValue (h : s.Layered) (hf : s.Feasible) :
    s.tableau.Lawful s.symbolValue :=
  fill_zero s ▸ h.lawful_basic hf

/-- Unused symbols have no value. -/
theorem Drafts.symbolValue_eq (h : Drafts s u) : u.symbolValue = s.symbolValue := by
  funext x
  rw [Solver.symbolValue_eq, Solver.symbolValue_eq, h.tableau.rowAt?_eq]

theorem symbolValue_dropArtificial (s : Solver Rat) (a : Symbol) :
    (s.dropArtificial a).symbolValue = s.symbolValue := by
  funext x
  rw [symbolValue_eq, symbolValue_eq, rowAt?_dropArtificial, Option.map_map]
  rfl

/-- A new symbol may host a row that is zero. -/
theorem symbolValue_host (hzero : r.constant = 0) :
    (u.host r).symbolValue = u.symbolValue := by
  have hnew : (u.newSymbol .slack).2.tableau.row? (u.newSymbol .slack).1 = none :=
    (Tableau.parametric_newSymbol u.tableau .slack).2
  funext x
  rw [symbolValue_eq, symbolValue_eq,
    show (u.host r).tableau.rowAt? x.id = _ from Tableau.rowAt?_insert _ _ _ _,
    ← Tableau.rowAt?_newSymbol u.tableau .slack x.id]
  split
  · rename_i hid
    rw [← hid.1, show (u.tableau.newSymbol .slack).2.rowAt? _ = none from hnew]
    exact hzero
  · rfl

end Values

section Loop

/-- No lawful solution brings the goal below what it is at the values of the symbols. -/
def Lowest (s : Solver Rat) (goal : Goal) : Prop :=
  ∃ g, s.goalRow? goal = some g ∧
    ∀ σ, s.tableau.Solves σ → s.tableau.Lawful σ → g.constant ≤ g.eval σ

theorem Lowest.boundedBelow (h : s.Lowest goal) : s.BoundedBelow goal := by
  obtain ⟨g, hg, hmin⟩ := h
  refine ⟨g.constant, fun σ hσ hlaw p hp => ?_⟩
  rw [← Option.some.inj (hg.symm.trans hp)]
  exact hmin σ hσ hlaw

/-- The height of a primal loop is what its first goal is at the values that are reached. -/
theorem Lowering.height_eq (h : Lowering s t) (hg : s.goalRow? goal = some g) :
    (Loop.primal goal).height t = g.eval t.symbolValue := by
  have hσ := h.layered.proper.solves_symbolValue
  have hgoal := h.equivalent.goalRow? goal ((h.equivalent.solves _).mp hσ)
  rw [hg, Option.map_some] at hgoal
  obtain ⟨p, hp, he⟩ := Option.map_eq_some_iff.mp hgoal
  rw [Loop.height, hp, ← he, eval_symbolValue (admits_goalRow? h.layered.proper hp)]
  rfl

/-- A pivot is degenerate as long as the values are those that the loop starts with, if
these are lowest. -/
theorem Lowering.symbolValue_pivot (h : Lowering s t) (hs : s.Proper) (hlow : s.Lowest goal)
    (hsame : t.symbolValue = s.symbolValue) (hg : t.goalRow? goal = some g)
    (hent : entering? g = some entering)
    (hrow : withRow t.tableau (leaving? t.tableau entering) = some (leaving, r)) :
    ((t.dropRow leaving).pivot leaving entering r).symbolValue = s.symbolValue := by
  have hu := h.pivot hg hent hrow
  obtain ⟨hle, hlevel⟩ := h.level hg hent hrow rfl
  obtain ⟨g₀, hg₀, hmin⟩ := hlow
  have hbelow := hmin _ ((hu.equivalent.solves _).mp hu.layered.proper.solves_symbolValue)
    (hu.equivalent.lawful_iff.mp (hu.layered.lawful_symbolValue hu.feasible))
  rw [← hu.height_eq hg₀, ← eval_symbolValue (admits_goalRow? hs hg₀), ← hsame,
    ← h.height_eq hg₀] at hbelow
  exact (funext (hlevel (le_antisymm hle hbelow))).trans hsame

/-- A primal loop that starts where its goal is lowest moves nothing. -/
theorem Layered.symbolValue_optimize (hl : s.Layered) (hf : s.Feasible) (hlow : s.Lowest goal)
    (limit : Nat) :
    Ensures (s.optimize goal limit) (fun p => p.1.symbolValue = s.symbolValue) := by
  refine ensures_iterate (I := fun t => Lowering s t ∧ t.symbolValue = s.symbolValue) ?_ limit
    ⟨⟨hl, hf, .refl s⟩, rfl⟩
  rintro t ⟨ht, hsame⟩
  unfold Solver.primalStep
  split
  · exact hsame
  · rename_i g hg
    split
    · exact hsame
    · rename_i entering hent
      split
      · exact hsame
      · rename_i leaving r hrow
        exact ⟨ht.pivot hg hent hrow,
          ht.symbolValue_pivot hl.proper hlow hsame hg hent hrow⟩

end Loop

section Probe

/-- An artificial variable that is zero goes without moving anything. -/
theorem Layered.symbolValue_settleProbe (h : w.Layered) (ha : w.tableau.Knows a)
    (hzero : w.symbolValue a = 0) (success : Bool) :
    (w.settleProbe a success).2.symbolValue = w.symbolValue := by
  unfold Solver.settleProbe
  split
  · exact symbolValue_dropArtificial w a
  · rename_i q hrow
    have hq : q.constant = 0 := (symbolValue_of_row? hrow).symm.trans hzero
    dsimp only
    split
    · exact symbolValue_dropRow hrow hq
    · split
      · exact symbolValue_dropRow hrow hq
      · rename_i x hx
        have hb := Tableau.mem_basics_iff.mpr ⟨ha, hrow⟩
        have hc := (h.rows _ hb).reduced.coefficient_ne_zero (mem_symbols_of_firstPivotable? hx).1
        exact (symbolValue_dropArtificial _ a).trans (h.symbolValue_pivot hb hc hq)

/-- Probing a row whose constant is zero moves nothing. -/
theorem Layered.symbolValue_probe (hl : u.Layered) (hf : u.Feasible) (hr : u.tableau.Admits r)
    (hw : r.Within 1) (hzero : r.constant = 0) (limit : Nat) :
    Ensures (probe limit u r) (fun p => p.1.symbolValue = u.symbolValue) := by
  have hhost := probed_host hl hf hr hw hzero.ge
  have hsame : (u.host r).symbolValue = u.symbolValue := symbolValue_host hzero
  -- the goal is the value of the artificial variable, which is never negative
  have hlow : (u.host r).Lowest .artificial := by
    refine ⟨r, rfl, fun σ hσ hlaw => ?_⟩
    rw [hzero, ← ((hhost.solves σ).mp hσ).1]
    exact hlaw.nonneg _ ((hhost.knows _).mpr (Or.inr rfl)) rfl
  unfold Solver.probe
  refine Ensures.map (((hhost.layered.symbolValue_optimize hhost.feasible hlow limit).and
    (hhost.layered.optimize hhost.feasible .artificial (by simp [goalRow?, host])
      hlow.boundedBelow limit)).mono ?_)
  rintro ⟨w, answer⟩ ⟨hw, hok, hlowering, -⟩
  obtain rfl : answer = .ok () := hok
  have hw' := (hhost.of_lowering hlowering).withArtificial
  have hwa : Solver.symbolValue { w with artificial := none } = u.symbolValue := hw.trans hsame
  refine (hw'.layered.symbolValue_settleProbe ((hw'.knows _).mpr (Or.inr rfl)) ?_ _).trans hwa
  rw [hwa, symbolValue_eq,
    show u.tableau.rowAt? (u.newSymbol .slack).1.id = none from Tableau.rowAt?_symbolCount _]
  rfl

end Probe

end Solver
end Tether
