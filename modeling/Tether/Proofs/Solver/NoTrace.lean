import Tether.Proofs.Renumbering.Runs
import Tether.Proofs.Solver.LedgerRuns
import Tether.Proofs.Solver.Preference
import Tether.Proofs.Solver.Intact

/-!
# A rejected addition leaves no trace

An addition that is rejected, as a duplicate or as contradicting the required
constraints, leaves everything as it was but for unused symbols at the end of
the tableau.  These open a gap in the numbering of later symbols, and nothing
a solver answers depends on the numbers, so no later sequence of calls can
tell whether the addition was ever tried.

No law of arithmetic is used.  That a preference is never rejected rests on
the signs of one and minus one; for a required constraint nothing is needed.
-/

namespace Tether

open Simplex

namespace OrderedMap

theorem mapValues_eq_self {κ β : Type} {m : OrderedMap κ β} {f : β → β}
    (h : ∀ e ∈ m.entries, f e.2 = e.2) : m.mapValues (fun _ => f) = m := by
  have hmap : m.entries.map (fun e => (e.1, f e.2)) = m.entries := by
    refine (List.map_congr_left (fun e he => ?_)).trans (List.map_id _)
    rw [h e he]
    rfl
  exact congrArg OrderedMap.mk hmap

end OrderedMap

namespace Gap

variable {α : Type} {t : Tableau α} {width : Nat}

/-- A gap behind all symbols leaves the known symbols as they are. -/
theorem symbol_eq_self {x : Symbol} (h : t.Knows x) :
    symbol ⟨t.symbolCount, width⟩ x = x :=
  congrArg (Symbol.mk · x.kind) (number_of_lt ⟨t.symbolCount, width⟩ h.id_lt)

theorem row_eq_self {r : Row α} (h : t.Admits r) : row ⟨t.symbolCount, width⟩ r = r := by
  have hcells : r.cells.map (cell ⟨t.symbolCount, width⟩) = r.cells := by
    refine (List.map_congr_left (fun c hc => ?_)).trans (List.map_id _)
    have hk := (h.parametric c.1 (List.mem_map_of_mem hc)).1
    exact Prod.ext (symbol_eq_self hk) rfl
  exact congrArg (Row.mk r.constant) hcells

theorem tag_eq_self {tag : Tag} (h : ∀ x ∈ tag.symbols, t.Knows x) :
    Gap.tag ⟨t.symbolCount, width⟩ tag = tag := by
  obtain ⟨marker, other⟩ := tag
  refine Tag.mk.injEq .. ▸ ⟨symbol_eq_self (h marker (by simp [Tag.symbols])), ?_⟩
  cases other with
  | none => rfl
  | some x => exact congrArg some (symbol_eq_self (h x (by simp [Tag.symbols])))

/-- Unused symbols at the end are a gap at the end. -/
theorem opens_of_pads {u : Tableau α} (hs : t.Solved) (hj : t.journal = none) (h : u.Pads t) :
    Opens ⟨t.symbolCount, u.symbolCount - t.symbolCount⟩ t u := by
  have hle := h.symbolCount_le
  have hnumber : ∀ id, t.symbolCount ≤ id →
      number ⟨t.symbolCount, u.symbolCount - t.symbolCount⟩ id =
        id + (u.symbolCount - t.symbolCount) :=
    fun id hid => number_of_le ⟨t.symbolCount, _⟩ hid
  refine ⟨Nat.le_refl _, by dsimp only; omega, ?_, ?_, ?_, h.basicCount_eq, ?_, ?_, h.faulted_eq⟩
  · intro id
    by_cases hid : id < t.symbolCount
    · rw [number_of_lt ⟨t.symbolCount, _⟩ hid, h.kindAt?_eq hid]
    · rw [hnumber id (by omega), Tableau.kindAt?_eq_none_iff.mpr (by omega),
        Tableau.kindAt?_eq_none_iff.mpr (by omega)]
  · intro id
    by_cases hid : id < t.symbolCount
    · rw [number_of_lt ⟨t.symbolCount, _⟩ hid, h.rowAt?_eq]
      cases hr : t.rowAt? id with
      | none => rfl
      | some r => exact congrArg some (row_eq_self (hs id r hr)).symm
    · rw [hnumber id (by omega), Tableau.rowAt?_eq_none_of_le (t := u) (by omega),
        Tableau.rowAt?_eq_none_of_le (t := t) (by omega)]
      rfl
  · intro id hb _
    rw [h.rowAt?_eq]
    exact Tableau.rowAt?_eq_none_of_le hb
  · rw [h.journal_eq, hj]
    rfl
  · intro j hm
    rw [hj] at hm
    cases hm

end Gap

namespace Solver

variable {α : Type} [Scalar α] {s u : Solver α}

/-- A solver with unused symbols at the end is the same up to a gap. -/
theorem Ledger.interchangeable (h : s.Ledger) (hi : s.Idle) (hp : u.Pads s) :
    Gap.Interchangeable s u := by
  refine ⟨⟨s.tableau.symbolCount, u.tableau.symbolCount - s.tableau.symbolCount⟩, u.tableau,
    Gap.opens_of_pads h.proper.rows hi.journal hp.1, ?_⟩
  have hobjective : Gap.row
      ⟨s.tableau.symbolCount, u.tableau.symbolCount - s.tableau.symbolCount⟩ s.objective =
        s.objective := Gap.row_eq_self h.proper.objective
  have hconstraints : s.constraints.mapValues (fun _ => Gap.tag
      ⟨s.tableau.symbolCount, u.tableau.symbolCount - s.tableau.symbolCount⟩) = s.constraints :=
    OrderedMap.mapValues_eq_self (fun e he => Gap.tag_eq_self (h.tagged.knows e he))
  have hunknowns : s.unknowns.mapValues (fun _ => Gap.entry
      ⟨s.tableau.symbolCount, u.tableau.symbolCount - s.tableau.symbolCount⟩) = s.unknowns := by
    refine OrderedMap.mapValues_eq_self (fun e he => ?_)
    unfold Gap.entry
    rw [Gap.symbol_eq_self (h.counted.symbols e he).1]
  have hedits : s.edits.mapValues (fun _ => Gap.edit
      ⟨s.tableau.symbolCount, u.tableau.symbolCount - s.tableau.symbolCount⟩) = s.edits := by
    refine OrderedMap.mapValues_eq_self (fun e he => ?_)
    unfold Gap.edit
    rw [Gap.tag_eq_self (h.tagged.knows _ (h.held.installed e he))]
  rw [hp.2]
  unfold Gap.solver
  simp only [hobjective, hconstraints, hunknowns, hedits, hi.artificial, hi.infeasible]
  rfl

/-- A rejected addition pads the solver with unused symbols. -/
theorem pads_of_rejected (hl : s.Ledger) (ht : s.tableau.Intact) (hi : s.Idle) {c : Constraint α}
    (hc : c.strength.isRequired = true ∨ UnitSigns α) {limit : Nat} {e : AddError}
    (he : e = .duplicateConstraint ∨ e = .unsatisfiableConstraint)
    (hadd : s.add limit c = .ok (u, .error e)) : u.Pads s := by
  rcases he with rfl | rfl
  · have hu : u = s := ensures_add_duplicate limit s c _ hadd rfl
    rw [hu]
    exact .refl s
  · cases hr : c.strength.isRequired with
    | true =>
        have hu : u.tableau.Intact := hl.intact_add ht limit c _ hadd
        exact (ensures_add_givesBack limit hi hr _ hadd rfl).pads
          (hu.faultless.trans ht.faultless.symm)
    | false =>
        rcases hc with hc | hsigns
        · rw [hr] at hc
          cases hc
        · exact absurd rfl (ensures_add_preference hl hr limit _ hadd)

/-- An addition that is rejected, after any run without breakdowns, leaves the
solver as it was but for unused symbols, and every later sequence of calls gets
the answers that it gets without the addition. -/
theorem rejected_addition_leaves_no_trace (settings : Settings α) (limit : Nat)
    (before : List (SolverCall α)) {answers : List (SolverAnswer α)}
    (hrun : (empty settings).run limit before = .ok (s, answers))
    (hcalm : ∀ a ∈ answers, a.isInternal = false) {c : Constraint α}
    (hc : c.strength.isRequired = true ∨ UnitSigns α) {e : AddError}
    (he : e = .duplicateConstraint ∨ e = .unsatisfiableConstraint)
    (hadd : s.add limit c = .ok (u, .error e)) :
    u.Pads s ∧ ∀ (limit : Nat) (later : List (SolverCall α)),
      (u.run limit later).map (·.2) = (s.run limit later).map (·.2) ∧
        Alike (SameAnswer Gap.Interchangeable) (s.run limit later) (u.run limit later) := by
  have hl : s.Ledger := ledger_run settings limit before _ hrun
  have hi : s.Idle := idle_run settings limit before _ hrun hcalm
  have ht : s.tableau.Intact := intact_run settings limit before _ hrun
  have hp := pads_of_rejected hl ht hi hc he hadd
  refine ⟨hp, fun limit later => ?_⟩
  have hsame := (hl.interchangeable hi hp).run limit later
  exact ⟨hsame.answers_eq.symm, hsame⟩

/-- A bound that contradicts another one is rejected by a probe, and leaves no
trace. -/
theorem rejected_bound_leaves_no_trace :
    ∃ (s u : Solver Rat) (answers : List (SolverAnswer Rat)) (floor ceiling : Constraint Rat),
      floor = ⟨"floor", ⟨[.symbolic ⟨.entity ⟨0⟩, .width⟩ 1], 0⟩, .greaterOrEqual, .required⟩ ∧
      ceiling = ⟨"ceiling", ⟨[.symbolic ⟨.entity ⟨0⟩, .width⟩ 1], 1⟩, .lessOrEqual, .required⟩ ∧
      (empty .standard).run 9 [.add floor] = .ok (s, answers) ∧
      (∀ a ∈ answers, a.isInternal = false) ∧
      s.add 9 ceiling = .ok (u, .error .unsatisfiableConstraint) ∧
      u.Pads s ∧ (u.run 9 [.remove floor, .add ceiling, .flush]).map (·.2) =
        (s.run 9 [.remove floor, .add ceiling, .flush]).map (·.2) := by
  have hchain : ((empty .standard : Solver Rat).run 9 [.add ⟨"floor",
      ⟨[.symbolic ⟨.entity ⟨0⟩, .width⟩ 1], 0⟩, .greaterOrEqual, .required⟩]).toOption.any
        (fun p => p.2.all (fun a => !a.isInternal) && (p.1.add 9 ⟨"ceiling",
          ⟨[.symbolic ⟨.entity ⟨0⟩, .width⟩ 1], 1⟩, .lessOrEqual, .required⟩).toOption.any
            (fun q => decide (q.2 = .error .unsatisfiableConstraint))) = true := by
    decide +kernel
  obtain ⟨⟨s, answers⟩, hrun, hrest⟩ := exists_ok_of_any hchain
  obtain ⟨hcalm, hrest⟩ := Bool.and_eq_true_iff.mp hrest
  obtain ⟨⟨u, answer⟩, hadd, hanswer⟩ := exists_ok_of_any hrest
  obtain rfl : answer = .error .unsatisfiableConstraint := of_decide_eq_true hanswer
  have hcalm : ∀ a ∈ answers, a.isInternal = false := by simpa using hcalm
  have hall := rejected_addition_leaves_no_trace .standard 9 _ hrun hcalm
    (Or.inl (by decide +kernel)) (Or.inr rfl) hadd
  exact ⟨s, u, answers, _, _, rfl, rfl, hrun, hcalm, hadd, hall.1, (hall.2 9 _).1⟩

end Solver
end Tether
