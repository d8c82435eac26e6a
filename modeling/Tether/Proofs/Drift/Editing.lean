import Tether.Proofs.Drift.Removal
import Tether.Proofs.Solver.LedgerRuns

/-!
# Drift when edit variables move

A suggestion moves the values along one error of an edit constraint, and that loses nothing:
only the dual steps do.  The values of before are no further away than the suggested value is
from the one that it replaces.  The error is in no required equality.  An edit variable comes with a
constraint that is added and goes with one that is removed.
-/

namespace Tether

open Simplex

namespace Solver

variable {s w : Solver Coarse} {x y : Symbol} {tag : Tag} {v : Variable} {edit : Edit Coarse}
  {k : Nat} {F : Reach} {δ : Coarse}

section Shifting

/-- Moving the value of a symbol loses nothing. -/
theorem retraces_of_moved (hcount : s.tableau.symbolCount ≤ w.tableau.symbolCount) {d : Rat}
    (h : ∀ σ, w.tableau.Meets σ → s.tableau.Meets (Function.update σ x (σ x + d))) :
    Retraces 0 (Reach.ofMove d) {x} s w :=
  retraces_of_meets hcount (fun σ _ _ hσ hb =>
    ⟨_, h σ hσ, hb.move x d, fun _ hy => Function.update_of_ne hy _ _⟩)

/-- A row that does not mention a symbol does not move with it. -/
theorem shift_coefficient_of_notMem {r : Row Coarse} (hr : x ∉ r.symbols) :
    r.shift (δ * r.coefficient x) = r := by
  have hcoeff : r.coefficient x = Scalar.zero := by
    rw [Row.coefficient, Row.get?_eq_none_iff.mpr hr]
    rfl
  rw [hcoeff, Row.shift]
  refine congrArg (fun a => Row.mk a r.cells) (Coarse.eq_of_value_eq ?_)
  show r.constant.value + δ.value * 0 = r.constant.value
  rw [mul_zero, add_zero]

theorem mem_basics_shiftMentioning {b : Symbol × Row Coarse} :
    b ∈ (s.modifyMentioning x (fun r => r.shift (δ * r.coefficient x))).tableau.basics ↔
      ∃ r, (b.1, r) ∈ s.tableau.basics ∧ b.2 = r.shift (δ * r.coefficient x) :=
  Tableau.mem_basics_of_rows (f := fun _ r => r.shift (δ * r.coefficient x))
    (kindAt?_modifyMentioning s x _)
    (rowAt?_modifyMentioning s x (fun _ hr => shift_coefficient_of_notMem hr))

/-- Shifting the row of a basic symbol moves its value. -/
theorem Proper.retraces_shiftRow (h : s.Proper) (hk : s.tableau.Knows x)
    (hbasic : s.tableau.isBasic x = true) (δ : Coarse) :
    Retraces 0 (Reach.ofMove δ.value) {x} s (s.shiftRow x δ) := by
  have hcount : s.tableau.symbolCount ≤ (s.shiftRow x δ).tableau.symbolCount := by
    refine Tableau.symbolCount_le_of_knows (fun y hy => ?_)
    rw [tableau_shiftRow]
    unfold Tableau.Knows
    rwa [Tableau.kindAt?_modify]
  rw [← Reach.ofMove_neg]
  refine retraces_of_moved hcount (fun σ hσ b hmem => ?_)
  have hnot : x ∉ b.2.exact.symbols := by
    rw [Row.symbols_exact]
    obtain ⟨r, hr⟩ := Option.isSome_iff_exists.mp hbasic
    exact h.notMem_of_basic (Tableau.mem_basics_iff.mpr ⟨hk, hr⟩) hmem
  rw [Row.eval_update_of_notMem hnot]
  by_cases hx : b.1 = x
  · have hshifted : σ b.1 = (b.2.shift δ).exact.eval σ :=
      hσ (b.1, b.2.shift δ) (mem_basics_shiftRow.mpr ⟨b.2, hmem, (if_pos (by rw [hx])).symm⟩)
    rw [Row.exact_shift, Row.eval_shift, hx] at hshifted
    rw [hx, Function.update_self, hshifted]
    ring
  · have hid : x.id ≠ b.1.id :=
      fun he => hx ((Tableau.mem_basics_iff.mp hmem).1.eq_of_id_eq hk he.symm)
    rw [Function.update_of_ne hx]
    exact hσ b (mem_basics_shiftRow.mpr ⟨b.2, hmem, (if_neg hid).symm⟩)

/-- Shifting the rows that mention a parametric symbol moves its value. -/
theorem Proper.retraces_shiftMentioning (h : s.Proper) (hx : s.tableau.row? x = none)
    (δ : Coarse) : Retraces 0 (Reach.ofMove δ.value) {x} s
      (s.modifyMentioning x (fun r => r.shift (δ * r.coefficient x))) := by
  have hcount : s.tableau.symbolCount ≤
      (s.modifyMentioning x (fun r => r.shift (δ * r.coefficient x))).tableau.symbolCount := by
    refine Tableau.symbolCount_le_of_knows (fun y hy => ?_)
    unfold Tableau.Knows
    rwa [kindAt?_modifyMentioning]
  refine retraces_of_moved hcount (fun σ hσ b hmem => ?_)
  have hrow : σ b.1 = (b.2.shift (δ * b.2.coefficient x)).exact.eval σ :=
    hσ (b.1, b.2.shift (δ * b.2.coefficient x))
      (mem_basics_shiftMentioning.mpr ⟨b.2, hmem, rfl⟩)
  have hmul : (δ * b.2.coefficient x).value = δ.value * b.2.exact.coefficient x := by
    rw [Row.coefficient_exact]
    rfl
  rw [Function.update_of_ne (Tableau.ne_of_mem_basics hx hmem), hrow, Row.exact_shift,
    Row.eval_shift, hmul, (h.rows.admits_coarse hmem).ordered.exact.eval_update]
  ring

/-- However an edit constraint is shifted, the value of one of its symbols moves. -/
theorem Proper.retraces_shiftEdit (h : s.Proper) (hk : ∀ x ∈ tag.symbols, s.tableau.Knows x)
    (δ : Coarse) : ∃ x ∈ tag.symbols,
      Retraces 0 (Reach.ofMove δ.value) {x} s (s.shiftEdit tag δ) := by
  have hm : tag.marker ∈ tag.symbols := by simp [Tag.symbols]
  unfold shiftEdit
  split
  · rename_i hbasic
    have hshift := h.retraces_shiftRow (hk _ hm) hbasic (-δ)
    have hneg : (-δ).value = -δ.value := rfl
    rw [hneg, Reach.ofMove_neg] at hshift
    exact ⟨tag.marker, hm, hshift⟩
  · rename_i hbasic
    split
    · rename_i o ho
      obtain ⟨hother, hobasic⟩ := Option.filter_eq_some_iff.mp ho
      have hin : o ∈ tag.symbols := by simp [Tag.symbols, hother]
      exact ⟨o, hin, h.retraces_shiftRow (hk o hin) hobasic δ⟩
    · exact ⟨tag.marker, hm,
        h.retraces_shiftMentioning (by simpa [Tableau.isBasic] using hbasic) δ⟩

end Shifting

section Suggesting

/-- How far a suggestion is from the last one. -/
def suggestedMove (s : Solver Coarse) (v : Variable) (a : Coarse) : Rat :=
  (s.edits.get? v).elim 0 (fun edit => (a - edit.constant).value)

/-- The constraint that holds an edit variable is a preference. -/
theorem Ledger.preference_of_edit (h : s.Ledger) (hv : s.edits.get? v = some edit) :
    edit.constraint.strength.isRequired = false ∧ edit.constraint.markerKind = .error := by
  obtain ⟨a, strength, hform, hreq⟩ :=
    h.held.form _ ((OrderedMap.get?_eq_some_iff h.held.keys).mp hv)
  dsimp only at hform
  have hrequired : edit.constraint.strength.isRequired = false := by
    rw [hform]
    exact hreq
  have hrelation : edit.constraint.relation = .equalTo := by
    rw [hform]
    rfl
  refine ⟨hrequired, ?_⟩
  rw [Constraint.markerKind, hrelation]
  exact if_neg (by rw [hrequired]; exact Bool.false_ne_true)

/-- The symbols of an edit constraint are errors. -/
theorem Ledger.error_of_edit (h : s.Ledger) (hv : s.edits.get? v = some edit)
    (hx : x ∈ edit.tag.symbols) : x.kind = .error ∧ s.tableau.Knows x := by
  have hin := h.held.installed _ ((OrderedMap.get?_eq_some_iff h.held.keys).mp hv)
  obtain ⟨hrequired, hkind⟩ := h.preference_of_edit hv
  obtain ⟨hmarker, hother⟩ := h.tagged.fits _ hin
  dsimp only at hmarker hother
  refine ⟨?_, h.tagged.knows _ hin x hx⟩
  rcases List.mem_cons.mp hx with rfl | hx
  · rw [hmarker, hkind]
  · rw [Option.mem_toList] at hx
    rw [hx, hrequired] at hother
    exact Option.some.inj hother

/-- An error of an edit constraint may be given up. -/
theorem Drifts.giveUp_error (h : Drifts k F s s.constraints.entries) (hl : s.Ledger)
    (hx : x.kind = .error) {G : Reach} (hback : Retraces 0 G {x} s w)
    (hbooks : w.books = s.books) : Drifts k (F.comp G) w w.constraints.entries := by
  simp only [books, Prod.mk.injEq] at hbooks
  rw [hbooks.2.1]
  refine h.giveUp hback (fun e he hbind hm => ?_) (fun e _ _ t _ => ⟨?_, fun hsome => ?_⟩)
  · have hdummy := hbind.marker_kind (hl.tagged.fits e he)
    rw [hm, hx] at hdummy
    cases hdummy
  · rw [symbol?, symbol?, hbooks.2.2.1]
  · obtain ⟨entry, hget, rfl⟩ := Option.map_eq_some_iff.mp hsome
    have hexternal := (hl.counted.symbols _
      ((OrderedMap.get?_eq_some_iff hl.counted.keys).mp hget)).2
    rw [hx] at hexternal
    cases hexternal

/-- A suggestion makes equalities drift by what its limit allows and what it moves. -/
theorem Drifts.suggest (h : Drifts k F s s.constraints.entries) (hl : s.Ledger) (limit : Nat)
    (v : Variable) (a : Coarse) : Ensures (s.suggest limit v a) (fun p =>
      Drifts (k + limit) (F.comp (Reach.ofMove (s.suggestedMove v a))) p.1
        p.1.constraints.entries) := by
  have hmore := F.le_comp (Reach.ofMove (s.suggestedMove v a))
  have hledger := hl.withEdits (hl.held.suggest v a)
  have hedited : Drifts k F { s with
      edits := s.edits.modify v (fun edit => { edit with constant := a }) }
      s.constraints.entries := ⟨h.bound⟩
  refine ensures_suggest (fun _ => h.mono (Nat.le_add_right k _) hmore (fun _ he => he))
    (fun _ _ _ => hedited.mono (Nat.le_add_right k _) hmore (fun _ he => he)) (fun edit hv => ?_)
  have hknows : ∀ x ∈ edit.tag.symbols, s.tableau.Knows x := fun x hx => (hl.error_of_edit hv hx).2
  have hwork := hledger.proper.reworked_shiftEdit hknows (a - edit.constant)
  obtain ⟨x, hx, hback⟩ := hledger.proper.retraces_shiftEdit hknows (a - edit.constant)
  have hshifted := hedited.giveUp_error hledger (hl.error_of_edit hv hx).1 hback hwork.books
  refine ((hwork.proper.pivoted_dualOptimize limit).and (ensures_dualOptimize_books _ limit)).mono
    ?_
  rintro p ⟨hpivoted, hbooks⟩
  simp only [books, Prod.mk.injEq] at hbooks
  have hlost := hshifted.lose hpivoted.retraces hbooks.2.2.1
  rw [suggestedMove, hv, hbooks.2.1]
  exact hlost

end Suggesting

section Editing

/-- A new edit variable makes equalities drift by what the addition of its constraint does. -/
theorem Drifts.addEdit (h : Drifts k F s s.constraints.entries) (hl : s.Ledger) (limit : Nat)
    (v : Variable) (strength : Strength Coarse) : Ensures (s.addEdit limit v strength)
      (fun p => Drifts (k + (2 * limit + 3)) F p.1 p.1.constraints.entries) := by
  have hmore := h.mono (Nat.le_add_right k (2 * limit + 3)) (le_refl F) (fun _ he => he)
  refine ensures_addEdit (fun _ => hmore) (fun _ => hmore)
    (fun _ _ => (h.add hl limit _).mono (fun p hp => ⟨fun _ _ _ => ?_, fun _ _ _ => hp,
      fun _ _ => hp⟩))
  exact ⟨hp.bound⟩

/-- How large values may have been before an edit variable is removed. -/
def endingReach (s : Solver Coarse) (v : Variable) : Reach :=
  (s.edits.get? v).elim Reach.id (fun edit =>
    removalReach { s with edits := s.edits.erase v } edit.constraint)

/-- An edit variable that goes makes equalities drift by what the removal of its constraint
does. -/
theorem Drifts.removeEdit (h : Drifts k F s s.constraints.entries) (hl : s.Ledger) (limit : Nat)
    (v : Variable) : Ensures (s.removeEdit limit v) (fun p =>
      Drifts (k + (limit + 1)) (F.comp (s.endingReach v)) p.1 p.1.constraints.entries) := by
  refine ensures_removeEdit (fun _ => ?_) (fun edit hv => ?_)
  · exact h.mono (Nat.le_add_right k _) (F.le_comp _) (fun _ he => he)
  · have hended : Drifts k F { s with edits := s.edits.erase v } s.constraints.entries :=
      ⟨h.bound⟩
    rw [endingReach, hv]
    exact hended.remove (hl.withEdits (hl.held.erase v)) limit edit.constraint

end Editing

end Solver
end Tether
