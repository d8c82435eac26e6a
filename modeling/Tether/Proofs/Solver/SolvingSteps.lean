import Tether.Proofs.Solver.Feasibility
import Tether.Proofs.Solver.Sifting

/-!
# Steps that solve

Every step that solves something solves what the list of the solves says, and the solve
is grounded: the symbol has a cell in the row that leaves, and a speck of that row was
left by an earlier solve.  The loops, the end of a probe and the removal of a marker
therefore account for a solver that is sifted by the solves so far.
-/

namespace Tether

open Simplex

theorem Simplex.Row.mem_symbols_insert_of_ne {α : Type} [Scalar α] {r : Row α} {s y : Symbol}
    (h : y ∈ r.symbols) (hne : y ≠ s) (x : α) : y ∈ (r.insert s x).symbols := by
  by_contra hn
  rw [← Row.get?_eq_none_iff, Row.get?_insert_of_ne r hne] at hn
  exact Row.get?_eq_none_iff.mp hn h

namespace Solver

variable {α : Type} [Scalar α] {s s' : Solver α} {E : List (Solve α)} {e : Solve α}

section Choices

theorem mem_symbols_of_coefficient {r : Row α} {x : Symbol} {p : α → Bool}
    (hp : p Scalar.zero = false) (h : p (r.coefficient x) = true) : x ∈ r.symbols := by
  by_contra hn
  rw [Row.coefficient, Row.get?_eq_none_iff.mpr hn, Option.getD_none, hp] at h
  cases h

variable [EvenTolerance α]

/-- The row that gives way to an entering symbol mentions it. -/
theorem mem_symbols_of_leaving? {t : Tableau α} {leaving entering : Symbol} {r : Row α}
    (h : leaving? t entering = some leaving) (hr : t.row? leaving = some r) :
    entering ∈ r.symbols := by
  obtain ⟨v, hv⟩ := exists_mem_of_least? _ h
  obtain ⟨b, hb, he⟩ := List.mem_filterMap.mp hv
  dsimp only at he
  split at he
  · rename_i hc
    cases he
    rw [(Tableau.mem_basics_iff.mp hb).2] at hr
    cases hr
    exact mem_symbols_of_coefficient EvenTolerance.negative_zero (Bool.and_eq_true_iff.mp hc).2
  · cases he

/-- The row that gives way to a marker mentions it. -/
theorem mem_symbols_of_markerLeaving? {t : Tableau α} {marker leaving : Symbol} {r : Row α}
    (h : markerLeaving? t marker = some leaving) (hr : t.row? leaving = some r) :
    marker ∈ r.symbols := by
  obtain ⟨q, hq⟩ := mem_rowsOf_of_markerLeaving? h
  obtain ⟨hb, hc⟩ := List.mem_filter.mp hq
  rw [(Tableau.mem_basics_iff.mp hb).2] at hr
  cases hr
  refine mem_symbols_of_coefficient (p := fun x => !Scalar.isZero x) ?_ hc
  rw [EvenTolerance.isZero_zero]
  rfl

end Choices

section Pivots

/-- A row leaves and is solved for a symbol in it, which enters. -/
def PivotedBy (s : Solver α) (e : Solve α) (s' : Solver α) : Prop :=
  ∃ leaving r, (leaving, r) ∈ s.tableau.basics ∧ e.symbol ∈ r.symbols ∧
    e = .ofPivot r leaving e.symbol ∧ s' = (s.dropRow leaving).enter e.symbol e.result

theorem pivotedBy_pivot {leaving entering : Symbol} {r : Row α}
    (hl : (leaving, r) ∈ s.tableau.basics) (he : entering ∈ r.symbols) :
    PivotedBy s (.ofPivot r leaving entering) ((s.dropRow leaving).pivot leaving entering r) :=
  ⟨leaving, r, hl, he, rfl, rfl⟩

/-- A dual step makes the pivot that is looked up for it, or changes only what is
recorded as infeasible. -/
theorem dualStep_pivotedBy (h : ∀ x ∈ s.infeasible, s.tableau.Knows x) :
    (dualStep s).Keeps
      (fun s' => ∃ e l, dualSolve? s = some e ∧ (∀ x ∈ l, x ∈ s.infeasible) ∧
        PivotedBy { s with infeasible := l } e s')
      (fun p => ∃ l, (∀ x ∈ l, x ∈ s.infeasible) ∧ p.1 = { s with infeasible := l }) := by
  have hsub : ∀ y, ∀ x ∈ s.stillInfeasible.filter (· ≠ y), x ∈ s.infeasible :=
    fun y x hx => List.mem_of_mem_filter (List.mem_of_mem_filter hx)
  unfold dualStep
  split
  · exact ⟨[], by simp, rfl⟩
  · rename_i leaving hleave
    have hk : s.tableau.Knows leaving :=
      h leaving (List.mem_of_mem_filter (mem_stillInfeasible_of_mostInfeasible? hleave))
    dsimp only
    split
    · exact ⟨_, hsub leaving, rfl⟩
    · rename_i r hr
      split
      · exact ⟨_, hsub leaving, rfl⟩
      · rename_i entering hent
        refine ⟨.ofPivot r leaving entering, _, ?_, hsub leaving, pivotedBy_pivot
          (Tableau.mem_basics_iff.mpr ⟨hk, hr⟩) (mem_symbols_of_dualEntering? hent).1⟩
        have hent : s.dualEntering? r = some entering := hent
        have hr : s.tableau.row? leaving = some r := hr
        simp [dualSolve?, hleave, hr, hent]

/-- A primal step makes the pivot that is looked up for it, or changes nothing. -/
theorem primalStep_pivotedBy [EvenTolerance α] (goal : Goal) (s : Solver α) :
    (primalStep goal s).Keeps (fun s' => ∃ e, primalSolve? goal s = some e ∧ PivotedBy s e s')
      (fun p => p.1 = s) := by
  unfold primalStep
  split
  · rfl
  · rename_i objective hobj
    split
    · rfl
    · rename_i entering hent
      split
      · rfl
      · rename_i leaving r hrow
        obtain ⟨hl, hr⟩ := withRow_eq_some_iff.mp hrow
        refine ⟨.ofPivot r leaving entering, ?_, pivotedBy_pivot
          (Tableau.mem_basics_iff.mpr ⟨(knows_of_leaving? hl).1, hr⟩)
          (mem_symbols_of_leaving? hl hr)⟩
        simp [primalSolve?, hobj, hent, hrow]

end Pivots

section Tracked

/-- In solved form, and sifted by the solves of a list. -/
def Tracked (E : List (Solve α)) (s : Solver α) : Prop :=
  s.Proper ∧ Sifted E s

theorem Tracked.withInfeasible (h : Tracked E s) {l : List Symbol}
    (hl : ∀ x ∈ l, x ∈ s.infeasible) : Tracked E { s with infeasible := l } :=
  ⟨h.1.withInfeasible hl, h.2.of_rows rfl rfl rfl⟩

/-- A pivot makes a grounded solve: the symbol that enters is not the one that leaves, and
the specks of the row were left by solves for the latter. -/
theorem Tracked.pivotedBy (h : Tracked E s) (hp : PivotedBy s e s') :
    e.Grounded E ∧ Tracked (E ++ [e]) s' := by
  obtain ⟨leaving, r, hl, he, heq, rfl⟩ := hp
  obtain ⟨hk, hr⟩ := Tableau.mem_basics_iff.mp hl
  have hparam := (h.1.rows leaving.id r hr).parametric e.symbol he
  have hne : e.symbol ≠ leaving := by
    intro hsame
    rw [← hsame, hparam.2] at hr
    cases hr
  refine ⟨Solve.grounded_of_specks ?_ (fun c hc => ⟨leaving, h.2.rows _ hl c ?_⟩), ?_,
    (h.2.dropRow leaving).enter (knows_dropRow.mpr hparam.1)⟩
  · rw [heq]
    exact Row.mem_symbols_insert_of_ne he hne _
  · rw [heq] at hc
    exact Row.specks_insert_subset r leaving _ hc
  · rw [heq]
    exact h.1.pivot hk hr hparam.1

/-- A row without specks may be hosted by a new symbol. -/
theorem Tracked.host (h : Tracked E s) (hr : s.tableau.Admits r) (hn : r.specks = [])
    (kind : SymbolKind) :
    Tracked E { (s.newSymbol kind).2 with
      tableau := (s.newSymbol kind).2.tableau.insert (s.newSymbol kind).1 r
      artificial := some r } := by
  refine ⟨h.1.host hr kind, h.2.objective, ?_, ?_⟩
  · intro q hq
    cases hq
    exact hn
  · intro b hb
    rcases (Tableau.mem_basics_insert (Tableau.knows_newSymbol s.tableau kind)).mp hb with
      rfl | ⟨-, hb⟩
    · intro c hc
      rw [hn] at hc
      cases hc
    · exact h.2.rows b ((drafts_newSymbol s kind).tableau.mem_basics_iff.mp hb)

end Tracked

section Loops

theorem Tracked.dualOptimize (h : Tracked E s) (limit : Nat) :
    Accounts E (dualSolves limit s) (s.dualOptimize limit) (fun E p => Tracked E p.1) := by
  refine accounts_iterate (fun E u hu => (dualStep_pivotedBy hu.1.infeasible).mono ?_ ?_) limit h
  · rintro u' ⟨e, l, he, hl, hp⟩
    exact ⟨e, he, (hu.withInfeasible hl).pivotedBy hp⟩
  · rintro p ⟨l, hl, he⟩
    exact he ▸ hu.withInfeasible hl

theorem Tracked.optimize [EvenTolerance α] (h : Tracked E s) (goal : Goal) (limit : Nat) :
    Accounts E (optimizeSolves goal limit s) (s.optimize goal limit)
      (fun E p => Tracked E p.1) := by
  refine accounts_iterate (fun E u hu => (primalStep_pivotedBy goal u).mono ?_ ?_) limit h
  · rintro u' ⟨e, he, hp⟩
    exact ⟨e, he, hu.pivotedBy hp⟩
  · intro p he
    exact he ▸ hu

end Loops

section Ends

/-- Settling a probe makes a grounded solve, or none. -/
theorem Tracked.settleProbe (h : Tracked E s) {artificial : Symbol}
    (ha : s.tableau.Knows artificial) (success : Bool) :
    Solve.AllGrounded E (settleSolve? s artificial).toList ∧
      Tracked (E ++ (settleSolve? s artificial).toList)
        (s.settleProbe artificial success).2 := by
  have hp := h.1.settleProbe ha success
  -- The log is looked up case by case, beside the branches of the code.
  revert hp
  unfold Solver.settleProbe
  split
  · rename_i hr
    have hsolve : settleSolve? s artificial = none := by simp [settleSolve?, hr]
    rw [hsolve]
    exact fun hp => ⟨trivial, hp, (h.2.dropArtificial artificial).mono _⟩
  · rename_i r hr
    have hdrop := (h.2.dropRow artificial).mono []
    split
    · rename_i hconstant
      have hsolve : settleSolve? s artificial = none := by
        simp [settleSolve?, hr, Row.firstPivotable?, List.isEmpty_iff.mp hconstant]
      rw [hsolve]
      exact fun hp => ⟨trivial, hp, hdrop⟩
    · split
      · rename_i hnone
        have hsolve : settleSolve? s artificial = none := by simp [settleSolve?, hr, hnone]
        rw [hsolve]
        exact fun hp => ⟨trivial, hp, hdrop⟩
      · rename_i entering he
        have hsolve : settleSolve? s artificial = some (.ofPivot r artificial entering) := by
          simp [settleSolve?, hr, he]
        rw [hsolve]
        obtain ⟨hg, hs⟩ := h.pivotedBy (pivotedBy_pivot (Tableau.mem_basics_iff.mpr ⟨ha, hr⟩)
          (mem_symbols_of_firstPivotable? he).1)
        exact fun hp => ⟨⟨hg, trivial⟩, hp, hs.2.dropArtificial artificial⟩

/-- Removing a marker makes a grounded solve, or none. -/
theorem Tracked.removeMarker [EvenTolerance α] (h : Tracked E s) (marker : Symbol) :
    Solve.AllGrounded E (markerSolve? s marker).toList ∧
      Sifted (E ++ (markerSolve? s marker).toList) (s.removeMarker marker) := by
  unfold Solver.removeMarker markerSolve?
  split
  · exact ⟨trivial, (h.2.dropRow marker).mono _⟩
  · split
    · rename_i hrow
      rw [hrow]
      exact ⟨trivial, h.2.mono _⟩
    · rename_i leaving r hrow
      rw [hrow]
      obtain ⟨hl, hr⟩ := withRow_eq_some_iff.mp hrow
      have hm := Tableau.mem_basics_iff.mpr ⟨knows_of_markerLeaving? hl, hr⟩
      have hg := (h.pivotedBy (pivotedBy_pivot hm (mem_symbols_of_markerLeaving? hl hr))).1
      exact ⟨⟨hg, trivial⟩, ((h.2.dropRow leaving).substitute marker _).mono _⟩

end Ends

end Solver
end Tether
