import Tether.Proofs.Scalar.Signs
import Tether.Proofs.Solver.LedgerRuns

/-!
# No infeasible row is lost

The dual steps look at recorded symbols only, so a suggestion restores
feasibility only if every restricted row that is infeasible is recorded.  That is
the invariant here: whatever changes rows records those that it makes infeasible,
a symbol is struck from the record only when its row is feasible or leaves, and
the row that enters in its place is feasible by the rules of signs.
-/

namespace Tether

open Simplex

namespace Simplex
namespace Row

variable {α : Type} [Scalar α]

theorem find?_consCell_of_ne {s y : Symbol} (hne : y ≠ s) (z : α) (l : List (Cell α)) :
    (consCell s z l).find? (fun c => c.1 == y) = l.find? (fun c => c.1 == y) := by
  unfold consCell
  split
  · rfl
  · simp [hne.symm]

theorem find?_insertCell_of_ne {s y : Symbol} (hne : y ≠ s) (x : α) (l : List (Cell α)) :
    (insertCell s x l).find? (fun c => c.1 == y) = l.find? (fun c => c.1 == y) := by
  induction l with
  | nil => exact find?_consCell_of_ne hne _ []
  | cons c rest ih =>
      obtain ⟨t, z⟩ := c
      unfold insertCell
      split_ifs with hlt heq
      · exact find?_consCell_of_ne hne _ _
      · subst heq
        rw [find?_consCell_of_ne hne]
        simp [hne.symm]
      · rw [List.find?_cons, List.find?_cons, ih]

/-- Adding to the coefficient of one symbol leaves the others as they are. -/
theorem get?_insert_of_ne (r : Row α) {s y : Symbol} (hne : y ≠ s) (x : α) :
    (r.insert s x).get? y = r.get? y :=
  congrArg (Option.map Prod.snd) (find?_insertCell_of_ne hne x r.cells)

/-- An infeasible row, solved for a symbol with a positive coefficient, is
feasible. -/
theorem isInfeasible_exchange [SignRules α] {r : Row α} {leaving entering : Symbol} {a : α}
    (hr : r.isInfeasible = true) (hne : entering ≠ leaving) (ha : r.get? entering = some a)
    (hpos : Scalar.positive a = true) : (r.exchange leaving entering).isInfeasible = false := by
  have hconstant : (r.exchange leaving entering).constant = r.constant * (-Scalar.one / a) := by
    simp only [exchange, solveFor, get?_insert_of_ne r hne, ha, Option.getD_some]
    rfl
  have hfactor := SignRules.positive_div (SignRules.negative_neg_one (α := α)) hpos
  have hsign := SignRules.negative_mul (SignRules.negative_of_infeasible hr) hfactor
  rw [← hconstant] at hsign
  rw [Bool.eq_false_iff]
  intro h
  rw [SignRules.negative_of_infeasible h] at hsign
  cases hsign

end Row
end Simplex

namespace Solver

variable {α : Type} [Scalar α] {s : Solver α} {x : Symbol}

section Recording

/-- No restricted row is infeasible. -/
def Clear (s : Solver α) : Prop :=
  ∀ b ∈ s.tableau.basics, b.1.isExternal = false → b.2.isInfeasible = false

instance (s : Solver α) : Decidable s.Clear :=
  inferInstanceAs (Decidable (∀ b ∈ s.tableau.basics,
    b.1.isExternal = false → b.2.isInfeasible = false))

/-- Every restricted symbol whose row is infeasible is recorded. -/
def Noted (s : Solver α) : Prop :=
  ∀ b ∈ s.tableau.basics, b.1.isExternal = false → b.2.isInfeasible = true →
    b.1 ∈ s.infeasible

theorem Clear.noted (h : s.Clear) : s.Noted := by
  intro b hb hext hinf
  rw [h b hb hext] at hinf
  cases hinf

theorem isInfeasible_of_row? {r : Row α} (h : s.tableau.row? x = some r) :
    s.isInfeasible x = r.isInfeasible := by
  rw [isInfeasible, h, Option.any_some]

/-- The recorded symbols that are still infeasible are all that is needed. -/
theorem Noted.still (h : s.Noted) : Noted { s with infeasible := s.stillInfeasible } := by
  intro b hb hext hinf
  have hrow : s.tableau.row? b.1 = some b.2 := (Tableau.mem_basics_iff.mp hb).2
  exact List.mem_filter.mpr ⟨h b hb hext hinf, (isInfeasible_of_row? hrow).trans hinf⟩

/-- The symbol whose row is taken out need not be recorded. -/
theorem Noted.dropRow (h : s.Noted) (x : Symbol) :
    Noted (Solver.dropRow { s with infeasible := s.infeasible.filter (· ≠ x) } x) := by
  intro b hb hext hinf
  obtain ⟨hknown, hrow⟩ := Tableau.mem_basics_iff.mp hb
  rw [Tableau.row?, rowAt?_dropRow] at hrow
  split at hrow
  · cases hrow
  · rename_i hid
    have hmem := h b (Tableau.mem_basics_iff.mpr ⟨knows_dropRow.mp hknown, hrow⟩) hext hinf
    refine List.mem_filter.mpr ⟨hmem, decide_eq_true ?_⟩
    exact fun heq => hid (congrArg Symbol.id heq.symm)

/-- Changing the rows that mention a symbol records what it makes infeasible. -/
theorem Noted.modifyMentioning (h : s.Noted) (x : Symbol) (f : Row α → Row α) :
    (s.modifyMentioning x f).Noted := by
  intro b hb hext hinf
  obtain ⟨hknown, hrow⟩ := Tableau.mem_basics_iff.mp hb
  have hknows : s.tableau.Knows b.1 := by
    rwa [Tableau.Knows, kindAt?_modifyMentioning] at hknown
  have hold := hrow
  rw [Tableau.row?, Solver.modifyMentioning, Solver.recordInfeasible,
    Tableau.rowAt?_modifyMentioning_if, Option.map_eq_some_iff] at hold
  obtain ⟨r, hr, hb2⟩ := hold
  rw [infeasible_modifyMentioning, List.mem_append]
  split at hb2
  · rename_i hcontains
    refine Or.inr (List.mem_filter.mpr ⟨?_, ?_⟩)
    · exact Tableau.mem_mentioning_iff.mpr ⟨hknows, r, hr, Row.contains_iff.mp hcontains⟩
    · rw [isInfeasible_of_row? hrow, hext, hinf]
      rfl
  · subst hb2
    exact Or.inl (h (b.1, b.2) (Tableau.mem_basics_iff.mpr ⟨hknows, hr⟩) hext hinf)

/-- A symbol may enter with a feasible row. -/
theorem Noted.enter (h : s.Noted) (hx : s.tableau.Knows x) {q : Row α}
    (hq : q.isInfeasible = false) : (s.enter x q).Noted := by
  have hsub : (s.substitute x q).Noted := h.modifyMentioning x _
  intro b hb hext hinf
  rcases (Tableau.mem_basics_insert (knows_substitute.mpr hx)).mp hb with rfl | ⟨-, hb⟩
  · rw [hq] at hinf
    cases hinf
  · exact hsub b hb hext hinf

/-- Shifting one row records it if it becomes infeasible. -/
theorem Noted.shiftRow (h : s.Noted) (hx : s.tableau.Knows x) (delta : α) :
    (s.shiftRow x delta).Noted := by
  intro b hb hext hinf
  obtain ⟨hknown, hrow⟩ := Tableau.mem_basics_iff.mp hb
  have hknows : s.tableau.Knows b.1 := by
    rwa [tableau_shiftRow, Tableau.Knows, Tableau.kindAt?_modify] at hknown
  rw [infeasible_shiftRow]
  by_cases hid : x.id = b.1.id
  · obtain rfl := hx.eq_of_id_eq hknows hid
    rw [isInfeasible_of_row? hrow, if_pos hinf]
    simp
  · rw [tableau_shiftRow, Tableau.row?, Tableau.rowAt?_modify, if_neg hid] at hrow
    have hmem := h b (Tableau.mem_basics_iff.mpr ⟨hknows, hrow⟩) hext hinf
    split
    · exact List.mem_append.mpr (Or.inl hmem)
    · exact hmem

/-- Moving the constraint of an edit variable records every row that it makes
infeasible. -/
theorem Noted.shiftEdit (h : s.Noted) {tag : Tag} (ht : ∀ x ∈ tag.symbols, s.tableau.Knows x)
    (delta : α) : (s.shiftEdit tag delta).Noted := by
  unfold Solver.shiftEdit
  split
  · exact h.shiftRow (ht _ (by simp [Tag.symbols])) _
  · split
    · rename_i other ho
      refine h.shiftRow (ht _ ?_) _
      simp [Tag.symbols, (Option.filter_eq_some_iff.mp ho).1]
    · exact h.modifyMentioning _ _

end Recording

section Restoring

/-- The symbol that is to enter has a positive coefficient. -/
theorem exists_positive_of_dualEntering? {r : Row α} (h : s.dualEntering? r = some x) :
    ∃ a, (x, a) ∈ r.cells ∧ Scalar.positive a = true := by
  obtain ⟨v, hv⟩ := exists_mem_of_least? _ h
  obtain ⟨c, hc, he⟩ := List.mem_filterMap.mp hv
  split at he
  · rename_i hadmit
    cases he
    exact ⟨c.2, hc, (Bool.and_eq_true_iff.mp hadmit).1⟩
  · cases he

theorem stillInfeasible_of_mostInfeasible? (h : s.mostInfeasible? = none) :
    s.stillInfeasible = [] := by
  unfold mostInfeasible? at h
  split at h
  · assumption
  · cases h

/-- What a restored solver is like. -/
def Restored (p : Solver α × Except Breakdown Unit) : Prop :=
  p.2 = .ok () → p.1.infeasible = [] ∧ p.1.Clear

variable [SignRules α]

/-- A dual step loses no infeasible row, and ends only when there is none. -/
theorem dualStep_keeps_noted (hs : s.Proper) (h : s.Noted) :
    (dualStep s).Keeps Noted Restored := by
  have hstill := h.still
  unfold dualStep
  split
  · rename_i hnone
    rw [stillInfeasible_of_mostInfeasible? hnone] at hstill
    refine fun _ => ⟨rfl, fun b hb hext => ?_⟩
    rw [Bool.eq_false_iff]
    exact fun hinf => List.not_mem_nil (hstill b hb hext hinf)
  · rename_i leaving hleave
    obtain ⟨hrecorded, hlow⟩ := List.mem_filter.mp (mem_stillInfeasible_of_mostInfeasible? hleave)
    dsimp only
    split
    · exact nofun
    · rename_i r hr
      split
      · exact nofun
      · rename_i entering henter
        obtain ⟨a, hcell, hpos⟩ := exists_positive_of_dualEntering? henter
        have hrow := hs.rows leaving.id r hr
        have hparam := hrow.parametric entering (Row.mem_symbols_iff.mpr ⟨a, hcell⟩)
        have hne : entering ≠ leaving := by
          rintro rfl
          rw [hparam.2] at hr
          cases hr
        rw [isInfeasible_of_row? hr] at hlow
        refine (hstill.dropRow leaving).enter (knows_dropRow.mpr hparam.1) ?_
        exact Row.isInfeasible_exchange hlow hne (hrow.ordered.get?_eq_some_iff.mpr hcell) hpos

/-- The dual steps end with no infeasible row, if they come to an end. -/
theorem restored_dualOptimize (hs : s.Proper) (h : s.Noted) (limit : Nat) :
    Ensures (s.dualOptimize limit) Restored := by
  refine ensures_iterate (I := fun u => u.Proper ∧ u.Noted) (fun u hu => ?_) limit ⟨hs, h⟩
  have hkeeps := (dualStep_keeps_proper hu.1).and (dualStep_keeps_noted hu.1 hu.2)
  revert hkeeps
  cases dualStep u with
  | finished t => exact And.right
  | stuck t why => exact And.right
  | pivoted t => exact id

/-- A suggestion that succeeds leaves no restricted row infeasible and nothing
recorded, from every solved form that is like that, however many dual pivots it
takes and whatever they do to the rows. -/
theorem suggestion_loses_no_infeasible_row {u : Solver α} {limit : Nat} {v : Variable} {x : α}
    (hs : s.Proper)
    (hknown : ∀ edit, s.edits.get? v = some edit → ∀ y ∈ edit.tag.symbols, s.tableau.Knows y)
    (hrecord : s.infeasible = []) (hclear : s.Clear)
    (hok : s.suggest limit v x = .ok (u, .ok ())) : u.infeasible = [] ∧ u.Clear := by
  have hsuggest : Ensures (s.suggest limit v x)
      (fun p => p.2 = .ok () → p.1.infeasible = [] ∧ p.1.Clear) := by
    refine ensures_suggest nofun (fun _ _ _ _ => ⟨hrecord, hclear⟩) (fun edit hedit => ?_)
    have hmoved : Proper { s with
        edits := s.edits.modify v (fun edit => { edit with constant := x }) } :=
      hs.of_rows rfl rfl rfl rfl
    have hproper := (hmoved.reworked_shiftEdit (hknown edit hedit) (x - edit.constant)).proper
    have hnoted : Noted { s with
        edits := s.edits.modify v (fun edit => { edit with constant := x }) } := hclear.noted
    refine (restored_dualOptimize hproper (hnoted.shiftEdit (hknown edit hedit) _) limit).mono ?_
    rintro ⟨t, answer⟩ hrestored hanswer
    cases answer with
    | error why => cases hanswer
    | ok ok => exact hrestored rfl
  exact hsuggest _ hok rfl

/-- A height that is the width and ten more, below a ceiling of a hundred: a width
of two hundred is out of reach, and a pivot lowers it until the height is right
below the ceiling. -/
theorem suggestion_under_a_ceiling :
    ∃ (s u : Solver Binary64) (answers : List (SolverAnswer Binary64)),
      (empty .standard).run 9 [
        .add ⟨"frame", ⟨[.symbolic ⟨.entity ⟨0⟩, .height⟩ (.ofDecimal 1 0),
          .symbolic ⟨.entity ⟨0⟩, .width⟩ (.neg (.ofDecimal 1 0))],
          .neg (.ofDecimal 10 0)⟩, .equalTo, .required⟩,
        .add ⟨"ceiling", ⟨[.symbolic ⟨.entity ⟨0⟩, .height⟩ (.ofDecimal 1 0)],
          .neg (.ofDecimal 100 0)⟩, .lessOrEqual, .required⟩,
        .addEdit ⟨.entity ⟨0⟩, .width⟩ .strong] = .ok (s, answers) ∧
      (s.suggest 0 ⟨.entity ⟨0⟩, .width⟩ (.ofDecimal 200 0)).toOption = none ∧
      s.suggest 9 ⟨.entity ⟨0⟩, .width⟩ (.ofDecimal 200 0) = .ok (u, .ok ()) ∧
      u.value ⟨.entity ⟨0⟩, .height⟩ = .ofDecimal 100 0 ∧ u.infeasible = [] ∧ u.Clear := by
  have hchain : ((empty .standard : Solver Binary64).run 9 [
        .add ⟨"frame", ⟨[.symbolic ⟨.entity ⟨0⟩, .height⟩ (.ofDecimal 1 0),
          .symbolic ⟨.entity ⟨0⟩, .width⟩ (.neg (.ofDecimal 1 0))],
          .neg (.ofDecimal 10 0)⟩, .equalTo, .required⟩,
        .add ⟨"ceiling", ⟨[.symbolic ⟨.entity ⟨0⟩, .height⟩ (.ofDecimal 1 0)],
          .neg (.ofDecimal 100 0)⟩, .lessOrEqual, .required⟩,
        .addEdit ⟨.entity ⟨0⟩, .width⟩ .strong]).toOption.any (fun p =>
          decide (p.1.infeasible = []) && decide p.1.Clear &&
          (p.1.suggest 0 ⟨.entity ⟨0⟩, .width⟩ (.ofDecimal 200 0)).toOption.isNone &&
          (p.1.suggest 9 ⟨.entity ⟨0⟩, .width⟩ (.ofDecimal 200 0)).toOption.any (fun q =>
            decide (q.2.toOption = some ()) &&
            decide (q.1.value ⟨.entity ⟨0⟩, .height⟩ = .ofDecimal 100 0))) = true := by
    decide +kernel
  obtain ⟨⟨s, answers⟩, hrun, hrest⟩ := exists_ok_of_any hchain
  simp only [Bool.and_eq_true, decide_eq_true_eq, Option.isNone_iff_eq_none] at hrest
  obtain ⟨⟨⟨hrecord, hclear⟩, hpivots⟩, hmoved⟩ := hrest
  obtain ⟨⟨u, answer⟩, hok, hvalue⟩ := exists_ok_of_any hmoved
  simp only [Bool.and_eq_true, decide_eq_true_eq] at hvalue
  have hledger : s.Ledger := ledger_run .standard 9 _ _ hrun
  have hknown : ∀ edit, s.edits.get? ⟨.entity ⟨0⟩, .width⟩ = some edit →
      ∀ y ∈ edit.tag.symbols, s.tableau.Knows y := by
    intro edit hedit
    obtain ⟨v, hv, -⟩ := OrderedMap.mem_of_get? hedit
    exact hledger.tagged.knows _ (hledger.held.installed _ hv)
  cases answer with
  | error e => cases hvalue.1
  | ok ok =>
      exact ⟨s, u, answers, hrun, hpivots, hok, hvalue.2,
        suggestion_loses_no_infeasible_row hledger.proper hknown hrecord hclear hok⟩

end Restoring

end Solver
end Tether
