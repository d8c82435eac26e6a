import Mathlib.Data.Finset.Powerset
import Tether.Proofs.Ending
import Tether.Proofs.Exact.Bases
import Tether.Proofs.Exact.Loops

/-!
# The pivots of a loop

Every pivot of a loop lowers a height, or it is degenerate: a primal pivot
lowers the goal or leaves every symbol at its value, and a dual pivot raises the
objective or leaves its row as it is.

Which pivot is next depends on the basis alone.  So a loop that comes back to a
basis has made degenerate pivots only since it left it, and goes on making the
same pivots without end.  A loop that never comes back to a basis ends, since
there are finitely many.
-/

namespace Tether

open Simplex

namespace Solver

variable {s t u start : Solver Rat} {loop : Loop} {goal : Goal} {leaving entering x : Symbol}
  {r g : Row Rat}

section Pivots

/-- The pivot that a loop makes next, and where it leads. -/
inductive Pivots (t : Solver Rat) : Loop → Symbol → Symbol → Row Rat → Solver Rat → Prop
  | primal {goal : Goal} {g : Row Rat} {leaving entering : Symbol} {r : Row Rat}
      (hg : t.goalRow? goal = some g) (hent : entering? g = some entering)
      (hrow : withRow t.tableau (leaving? t.tableau entering) = some (leaving, r)) :
      Pivots t (.primal goal) leaving entering r ((t.dropRow leaving).pivot leaving entering r)
  | dual {leaving entering : Symbol} {r : Row Rat} (hl : t.mostInfeasible? = some leaving)
      (hrow : t.tableau.row? leaving = some r) (hent : t.dualEntering? r = some entering) :
      Pivots t .dual leaving entering r ((t.released leaving).pivot leaving entering r)

theorem Pivots.step_eq (h : Pivots t loop leaving entering r u) : loop.step t = .pivoted u := by
  cases h with
  | primal hg hent hrow =>
      simp only [Loop.step, primalStep, hg, hent, hrow]
  | @dual leaving entering r hl hrow hent =>
      have hent' : dualEntering? { t with
          infeasible := t.stillInfeasible.filter (· ≠ leaving) } r = some entering := hent
      simp only [Loop.step, dualStep, hl, hrow, hent']
      rfl

theorem exists_pivots (h : loop.step t = .pivoted u) :
    ∃ leaving entering r, Pivots t loop leaving entering r u := by
  cases loop with
  | primal goal =>
      simp only [Loop.step, primalStep] at h
      split at h
      · cases h
      · rename_i g hg
        split at h
        · cases h
        · rename_i entering hent
          split at h
          · cases h
          · rename_i leaving r hrow
            cases h
            exact ⟨leaving, entering, r, .primal hg hent hrow⟩
  | dual =>
      simp only [Loop.step, dualStep] at h
      split at h
      · cases h
      · rename_i leaving hl
        split at h
        · cases h
        · rename_i r hrow
          split at h
          · cases h
          · rename_i entering hent
            cases h
            exact ⟨leaving, entering, r, .dual hl hrow hent⟩

/-- What a loop relies on and keeps: a primal loop a feasible solver, a dual loop a
settled objective. -/
def Loop.Proceeds (start : Solver Rat) : Loop → Solver Rat → Prop
  | .primal _ => Lowering start
  | .dual => Restoring start

theorem Loop.Proceeds.layered (h : loop.Proceeds start t) : t.Layered := by
  cases loop with
  | primal goal => exact Lowering.layered h
  | dual => exact Restoring.layered h

theorem Loop.Proceeds.equivalent (h : loop.Proceeds start t) : start.Equivalent t := by
  cases loop with
  | primal goal => exact Lowering.equivalent h
  | dual => exact Restoring.equivalent h

theorem Loop.Proceeds.pivots (h : loop.Proceeds start t)
    (hp : Pivots t loop leaving entering r u) : loop.Proceeds start u := by
  cases hp with
  | primal hg hent hrow => exact Lowering.pivot h hg hent hrow
  | dual hl hrow hent =>
      exact Restoring.pivot h (mem_stillInfeasible_of_mostInfeasible? hl) hrow hent

theorem Loop.Proceeds.visits (h : loop.Proceeds start t) (hv : Visits loop.step t u) :
    loop.Proceeds start u := by
  induction hv with
  | here => exact h
  | later hp _ ih =>
      obtain ⟨leaving, entering, r, hp⟩ := exists_pivots hp
      exact ih (h.pivots hp)

/-- The leaving symbol is basic, and the entering one occurs in its row. -/
theorem Loop.Proceeds.exchanges (h : loop.Proceeds start t)
    (hp : Pivots t loop leaving entering r u) :
    (leaving, r) ∈ t.tableau.basics ∧ r.coefficient entering ≠ 0 := by
  cases hp with
  | primal hg hent hrow =>
      obtain ⟨hm, -, ha, -⟩ := exhausted_of_leaving? hrow
      exact ⟨hm, ne_of_lt ha⟩
  | dual hl hrow hent =>
      have hmem := (mem_stillInfeasible_iff.mp (mem_stillInfeasible_of_mostInfeasible? hl)).1
      have hb := Tableau.mem_basics_iff.mpr ⟨h.layered.proper.infeasible _ hmem, hrow⟩
      exact ⟨hb, ne_of_gt (raises_of_dualEntering? (h.layered.ordered hb) hent).1⟩

theorem Loop.Proceeds.basicNumbers (h : loop.Proceeds start t)
    (hp : Pivots t loop leaving entering r u) :
    u.tableau.basicNumbers = insert entering.id (t.tableau.basicNumbers.erase leaving.id) := by
  obtain ⟨hb, ha⟩ := h.exchanges hp
  have hk := ((h.layered.proper.rows.admits hb).parametric entering
    (Row.mem_symbols_of_coefficient ha)).1
  cases hp with
  | primal hg hent hrow => exact basicNumbers_pivot hk
  | dual hl hrow hent =>
      exact basicNumbers_pivot (s := { t with
        infeasible := t.stillInfeasible.filter (· ≠ leaving) }) hk

end Pivots

section Same

theorem Loop.Proceeds.matching (ht : loop.Proceeds start t) (hu : loop.Proceeds start u)
    (hb : u.tableau.basicNumbers = t.tableau.basicNumbers) : Matching t u :=
  ⟨ht.layered, hu.layered, ht.equivalent.symm.trans hu.equivalent, hb⟩

/-- The basis determines which pivot is next. -/
theorem Loop.Proceeds.pivots_again {t' : Solver Rat} (ht : loop.Proceeds start t)
    (hu : loop.Proceeds start u) (hb : u.tableau.basicNumbers = t.tableau.basicNumbers)
    (hp : Pivots t loop leaving entering r t') : ∃ u', Pivots u loop leaving entering r u' := by
  have hm := ht.matching hu hb
  have hk := (Tableau.mem_basics_iff.mp (ht.exchanges hp).1).1
  cases hp with
  | primal hg hent hrow =>
      obtain ⟨hl, hr⟩ := withRow_eq_some_iff.mp hrow
      refine ⟨_, .primal ((hm.goalRow?_eq _).trans hg) hent (withRow_eq_some_iff.mpr ⟨?_, ?_⟩)⟩
      · rw [hm.leaving?_eq, hl]
      · exact hm.row?_eq hr hk
  | dual hl hrow hent =>
      exact ⟨_, .dual (hm.mostInfeasible?_eq ht hu hl) (hm.row?_eq hrow hk)
        ((hm.dualEntering?_eq _).trans hent)⟩

/-- The same pivots follow from the same basis. -/
theorem Loop.Proceeds.step_again {t' : Solver Rat} (ht : loop.Proceeds start t)
    (hu : loop.Proceeds start u) (hb : u.tableau.basicNumbers = t.tableau.basicNumbers)
    (hp : loop.step t = .pivoted t') :
    ∃ u', loop.step u = .pivoted u' ∧ loop.Proceeds start t' ∧ loop.Proceeds start u' ∧
      u'.tableau.basicNumbers = t'.tableau.basicNumbers := by
  obtain ⟨leaving, entering, r, hp⟩ := exists_pivots hp
  obtain ⟨u', hp'⟩ := ht.pivots_again hu hb hp
  refine ⟨u', hp'.step_eq, ht.pivots hp, hu.pivots hp', ?_⟩
  rw [ht.basicNumbers hp, hu.basicNumbers hp', hb]

/-- The loop comes back to a basis that it has left. -/
def Loop.Revisits (loop : Loop) (start : Solver Rat) : Prop :=
  ∃ t u, Visits loop.step start t ∧ Precedes loop.step t u ∧
    u.tableau.basicNumbers = t.tableau.basicNumbers

/-- A loop that comes back to a basis never ends. -/
theorem Loop.Proceeds.unfinished (h : loop.Proceeds start start) (hr : loop.Revisits start)
    (limit : Nat) : iterate loop.step limit start = .error .unfinished := by
  obtain ⟨t, u, ht, hu, hb⟩ := hr
  refine ht.iterate_unfinished (fun limit => ?_) limit
  refine iterate_of_returns (R := fun t u => loop.Proceeds start t ∧ loop.Proceeds start u ∧
    u.tableau.basicNumbers = t.tableau.basicNumbers) ?_ limit hu
      ⟨h.visits ht, h.visits (ht.trans hu.visits), hb⟩
  rintro t u t' ⟨ht, hu, hb⟩ hp
  exact ht.step_again hu hb hp

/-- The symbols of a loop are those that it starts with. -/
theorem Loop.Proceeds.basicNumbers_subset (h : loop.Proceeds start t) :
    t.tableau.basicNumbers ⊆ Finset.range start.tableau.symbolCount := by
  intro id hid
  obtain ⟨r, hr⟩ := Option.isSome_iff_exists.mp (Tableau.mem_basicNumbers.mp hid)
  obtain ⟨x, rfl, hk⟩ := Tableau.exists_knows_of_rowAt? hr
  exact Finset.mem_range.mpr ((h.equivalent.knows x).mp hk).id_lt

/-- A loop that never comes back to a basis ends. -/
theorem Loop.Proceeds.exists_iterate (h : loop.Proceeds start start)
    (hr : ¬ loop.Revisits start) :
    ∃ p, iterate loop.step (2 ^ start.tableau.symbolCount) start = .ok p := by
  have hends := exists_iterate_of_never_returns (f := fun t : Solver Rat => t.tableau.basicNumbers)
    (V := (Finset.range start.tableau.symbolCount).powerset)
    (fun t ht => Finset.mem_powerset.mpr (h.visits ht).basicNumbers_subset)
    (fun t u ht hu hb => hr ⟨t, u, ht, hu, hb⟩)
  rwa [Finset.card_powerset, Finset.card_range] at hends

end Same

section Heights

/-- What no pivot of a loop raises. -/
def Loop.height : Loop → Solver Rat → Rat
  | .primal goal, t => ((t.goalRow? goal).map (·.constant)).getD 0
  | .dual, t => -t.objective.constant

/-- A pivot of the loop leaves things as they are: a primal one every symbol at its
value, a dual one the objective. -/
def Loop.Degenerate : Loop → Solver Rat → Solver Rat → Prop
  | .primal _, t, u => ∀ x, u.symbolValue x = t.symbolValue x
  | .dual, t, u => u.objective = t.objective

theorem Matching.height_eq (h : Matching t u) (loop : Loop) : loop.height u = loop.height t := by
  cases loop with
  | primal goal => rw [Loop.height, Loop.height, h.goalRow?_eq]
  | dual => rw [Loop.height, Loop.height, h.objective_eq]

theorem goalRow?_pivot (t : Solver Rat) (goal : Goal) :
    ((t.dropRow leaving).pivot leaving entering r).goalRow? goal =
      (t.goalRow? goal).map (fun g => g.substitute entering (r.exchange leaving entering)) := by
  cases goal <;> rfl

theorem symbolValue_eq (s : Solver Rat) (x : Symbol) :
    s.symbolValue x = ((s.tableau.rowAt? x.id).map (·.constant)).getD 0 := by
  unfold symbolValue Tableau.row?
  cases s.tableau.rowAt? x.id <;> rfl

/-- A symbol that is zero may lose its row. -/
theorem symbolValue_dropRow (hrow : s.tableau.row? x = some r) (hzero : r.constant = 0) :
    (s.dropRow x).symbolValue = s.symbolValue := by
  funext y
  rw [symbolValue_eq, symbolValue_eq, rowAt?_dropRow]
  split
  · rename_i hid
    rw [← hid, show s.tableau.rowAt? x.id = some r from hrow]
    exact hzero.symm
  · rfl

/-- A parametric symbol may take a row that is zero. -/
theorem Proper.symbolValue_enter {q : Row Rat} (h : s.Proper) (hx : s.tableau.Parametric x)
    (hzero : q.constant = 0) : (s.enter x q).symbolValue = s.symbolValue := by
  funext y
  rw [symbolValue_eq, symbolValue_eq, rowAt?_enter hx.1]
  split
  · rename_i hid
    rw [← hid, show s.tableau.rowAt? x.id = none from hx.2]
    exact hzero
  · cases hy : s.tableau.rowAt? y.id with
    | none => rfl
    | some p =>
        have hp : p.Ordered := (h.rows y.id p hy).ordered
        show (p.substitute x q).constant = p.constant
        rw [hp.constant_substitute, hzero, mul_zero, add_zero]

/-- A pivot at zero leaves every symbol at its value. -/
theorem Layered.symbolValue_pivot (h : t.Layered) (hb : (leaving, r) ∈ t.tableau.basics)
    (ha : r.coefficient entering ≠ 0) (hzero : r.constant = 0) :
    ((t.dropRow leaving).pivot leaving entering r).symbolValue = t.symbolValue := by
  have hm := Row.mem_symbols_of_coefficient ha
  have hpar := ((h.proper.rows.admits hb).parametric entering hm).erase leaving
  have hq : (r.exchange leaving entering).constant = 0 := by
    rw [Row.constant_exchange (h.ordered hb) (h.proper.ne_of_basic hb hm) ha, hzero, neg_zero,
      zero_div]
  calc ((t.dropRow leaving).pivot leaving entering r).symbolValue
      = (t.dropRow leaving).symbolValue := (h.proper.dropRow leaving).symbolValue_enter hpar hq
    _ = t.symbolValue := symbolValue_dropRow (Tableau.mem_basics_iff.mp hb).2 hzero

/-- A primal pivot lowers the goal or changes no value. -/
theorem Lowering.level (h : Lowering start t) (hg : t.goalRow? goal = some g)
    (hent : entering? g = some entering)
    (hrow : withRow t.tableau (leaving? t.tableau entering) = some (leaving, r))
    (hu : u = (t.dropRow leaving).pivot leaving entering r) :
    (Loop.primal goal).height u ≤ (Loop.primal goal).height t ∧
      ((Loop.primal goal).height u = (Loop.primal goal).height t →
        (Loop.primal goal).Degenerate t u) := by
  have hadmits := admits_goalRow? h.layered.proper hg
  obtain ⟨hneg, -⟩ := lowers_of_entering? hadmits.ordered (within_goalRow? h.layered hg) hent
  obtain ⟨hb, ht, ha, -⟩ := exhausted_of_leaving? hrow
  have hpos := h.feasible _ hb ht
  have hq : (r.exchange leaving entering).constant = -r.constant / r.coefficient entering :=
    Row.constant_exchange (h.layered.ordered hb)
      (h.layered.proper.ne_of_basic hb (Row.mem_symbols_of_coefficient (ne_of_lt ha)))
      (ne_of_lt ha)
  have hstep : 0 ≤ -r.constant / r.coefficient entering :=
    div_nonneg_of_nonpos (neg_nonpos.mpr hpos) (le_of_lt ha)
  have hbefore : (Loop.primal goal).height t = g.constant := by
    rw [Loop.height, hg]
    rfl
  have hafter : (Loop.primal goal).height u =
      g.constant + g.coefficient entering * (-r.constant / r.coefficient entering) := by
    rw [Loop.height, hu, goalRow?_pivot, hg, ← hq, ← hadmits.ordered.constant_substitute]
    rfl
  rw [hbefore, hafter]
  refine ⟨?_, fun hlevel x => ?_⟩
  · have := mul_nonpos_of_nonpos_of_nonneg (le_of_lt hneg) hstep
    linarith
  · have hprod : g.coefficient entering * (-r.constant / r.coefficient entering) = 0 := by
      linarith
    have hzero : r.constant = 0 := by
      rcases mul_eq_zero.mp hprod with hc | hc
      · exact absurd hc (ne_of_lt hneg)
      · exact neg_eq_zero.mp ((div_eq_zero_iff.mp hc).resolve_right (ne_of_lt ha))
    rw [hu]
    exact congrFun (h.layered.symbolValue_pivot hb (ne_of_lt ha) hzero) x

/-- A dual pivot raises the objective or does not change it. -/
theorem Restoring.level (h : Restoring start t) (hl : t.mostInfeasible? = some leaving)
    (hrow : t.tableau.row? leaving = some r) (hent : t.dualEntering? r = some entering)
    (hu : u = (t.released leaving).pivot leaving entering r) :
    Loop.dual.height u ≤ Loop.dual.height t ∧
      (Loop.dual.height u = Loop.dual.height t → Loop.dual.Degenerate t u) := by
  obtain ⟨hmem, r', hr', hlow⟩ :=
    Solver.mem_stillInfeasible_iff.mp (mem_stillInfeasible_of_mostInfeasible? hl)
  obtain rfl : r = r' := Option.some.inj (hrow.symm.trans hr')
  have hb := Tableau.mem_basics_iff.mpr ⟨h.layered.proper.infeasible leaving hmem, hrow⟩
  obtain ⟨ha, ht, -⟩ := raises_of_dualEntering? (h.layered.ordered hb) hent
  have hcost := h.settled entering ht
  have hobjective : u.objective =
      t.objective.substitute entering (r.exchange leaving entering) := by
    rw [hu]
    rfl
  have hq : (r.exchange leaving entering).constant = -r.constant / r.coefficient entering :=
    Row.constant_exchange (h.layered.ordered hb)
      (h.layered.proper.ne_of_basic hb (Row.mem_symbols_of_coefficient (ne_of_gt ha)))
      (ne_of_gt ha)
  have hstep : 0 < -r.constant / r.coefficient entering := div_pos (neg_pos.mpr hlow) ha
  have hafter : Loop.dual.height u = -(t.objective.constant +
      t.objective.coefficient entering * (-r.constant / r.coefficient entering)) := by
    rw [Loop.height, hobjective, h.layered.proper.objective.ordered.constant_substitute, hq]
  have hbefore : Loop.dual.height t = -t.objective.constant := rfl
  rw [hbefore, hafter]
  refine ⟨?_, fun hlevel => ?_⟩
  · have := mul_nonneg hcost (le_of_lt hstep)
    linarith
  · have hprod : t.objective.coefficient entering *
        (-r.constant / r.coefficient entering) = 0 := by
      linarith
    have hzero := (mul_eq_zero.mp hprod).resolve_right (ne_of_gt hstep)
    have hnot : entering ∉ t.objective.symbols :=
      fun hin => h.layered.objective.reduced.coefficient_ne_zero hin hzero
    show u.objective = t.objective
    rw [hobjective, Row.substitute_of_notMem hnot]

/-- A pivot lowers the height or is degenerate. -/
theorem Loop.Proceeds.level (h : loop.Proceeds start t)
    (hp : Pivots t loop leaving entering r u) :
    loop.height u ≤ loop.height t ∧ (loop.height u = loop.height t → loop.Degenerate t u) := by
  cases hp with
  | primal hg hent hrow => exact Lowering.level h hg hent hrow rfl
  | dual hl hrow hent => exact Restoring.level h hl hrow hent rfl

theorem Loop.Proceeds.height_le (h : loop.Proceeds start t) (hv : Visits loop.step t u) :
    loop.height u ≤ loop.height t := by
  induction hv with
  | here => exact le_refl _
  | later hp _ ih =>
      obtain ⟨leaving, entering, r, hp⟩ := exists_pivots hp
      exact le_trans (ih (h.pivots hp)) (h.level hp).1

/-- A basis that a loop comes back to is left by a degenerate pivot. -/
theorem Loop.Proceeds.degenerate {t' : Solver Rat} (h : loop.Proceeds start start)
    (ht : Visits loop.step start t) (hp : loop.step t = .pivoted t')
    (hu : Visits loop.step t' u) (hb : u.tableau.basicNumbers = t.tableau.basicNumbers) :
    loop.Degenerate t t' := by
  have ht := h.visits ht
  obtain ⟨leaving, entering, r, hp⟩ := exists_pivots hp
  have ht' := ht.pivots hp
  obtain ⟨hle, hlevel⟩ := ht.level hp
  -- the height cannot rise again to where it was
  have hreturn : loop.height u = loop.height t :=
    (ht.matching (ht'.visits hu) hb).height_eq loop
  exact hlevel (le_antisymm hle (hreturn ▸ ht'.height_le hu))

end Heights

end Solver
end Tether
