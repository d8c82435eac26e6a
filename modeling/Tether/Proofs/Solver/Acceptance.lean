import Tether.Proofs.Solver.Holding
import Tether.Proofs.Solver.Preference

/-!
# Only required constraints are rejected

In every solver that a run reaches, the row of a preference has a subject.  So the
addition of a preference solves its row and installs it: it is not probed, and it
is not rejected.  An edit variable is held by a preference, so beginning an edit
never breaks down for the reason that its constraint was rejected.
-/

namespace Tether
namespace Solver

open Simplex

variable {α : Type} [Scalar α] [UnitSigns α] {s u : Solver α}

section Accepting

/-- A preference is a duplicate, or its row is solved for a symbol and installed. -/
theorem Ledger.add_preference (h : s.Ledger) {c : Constraint α}
    (hc : c.strength.isRequired = false) (hp : c.hasProxies = false) :
    ∃ x, subject? (s.createRow c).1 (s.createRow c).2.1 = some x ∧
      ∀ limit, s.add limit c =
        if s.hasConstraint c then .ok (s, .error .duplicateConstraint)
        else Solver.install limit ((s.createRow c).2.2.enter x ((s.createRow c).1.solveFor x)) c
          (s.createRow c).2.1 := by
  obtain ⟨x, hx⟩ := Option.ne_none_iff_exists'.mp (subject?_createRow h hc)
  refine ⟨x, hx, fun limit => ?_⟩
  cases hdup : s.hasConstraint c with
  | true => exact add_of_duplicate hp hdup
  | false => exact add_of_subject hp hdup hx

/-- What holds an edit variable is a preference, and is not rejected. -/
theorem Ledger.addEdit_not_rejected (h : s.Ledger) (limit : Nat) (v : Variable)
    (strength : Strength α) :
    Ensures (s.addEdit limit v strength)
      (fun p => p.2 ≠ .error (.internal "non-required edit constraint rejected")) := by
  refine ensures_addEdit nofun nofun (fun _ hweak => ?_)
  refine ((ensures_add_present s limit _).and ((ensures_add_answer s limit _).and
    (ensures_add_preference h hweak limit))).mono ?_
  rintro p ⟨hpresent, hanswer, haccepted⟩
  refine ⟨fun _ _ _ => nofun, fun hok hlost => ?_, fun e he htext => ?_⟩
  · exact absurd hlost (get?_ne_none (hpresent (.inl hok)))
  · cases e with
    | duplicateConstraint => cases htext
    | unsatisfiableConstraint => exact haccepted he
    | internal detail =>
        obtain ⟨why, rfl⟩ := hanswer detail he
        have hwhy := EditError.internal.inj (Except.error.inj htext)
        cases why <;> exact absurd hwhy (by decide)

end Accepting

section Results

variable {calls : List (SolverCall α)} {answers : List (SolverAnswer α)}

/-- In every solver that a run reaches, and for every constraint that is not
required, whatever its relation, strength, coefficients and constant: its row has a
subject, so its addition finds a duplicate or installs it, without a probe.  Only
required constraints are rejected, and no edit is refused because the constraint
behind it was. -/
theorem only_required_constraints_are_rejected (settings : Settings α) (limit : Nat)
    (hrun : (empty settings).run limit calls = .ok (s, answers)) :
    (∀ c : Constraint α, c.strength.isRequired = false → c.hasProxies = false →
      ∃ x, subject? (s.createRow c).1 (s.createRow c).2.1 = some x ∧
        ∀ limit, s.add limit c =
          if s.hasConstraint c then .ok (s, .error .duplicateConstraint)
          else install limit ((s.createRow c).2.2.enter x ((s.createRow c).1.solveFor x)) c
            (s.createRow c).2.1) ∧
    (∀ limit c u, s.add limit c = .ok (u, .error .unsatisfiableConstraint) →
      c.strength.isRequired = true) ∧
    ∀ limit v strength u answer, s.addEdit limit v strength = .ok (u, answer) →
      answer ≠ .error (.internal "non-required edit constraint rejected") := by
  have hledger : s.Ledger := ledger_run settings limit calls _ hrun
  refine ⟨fun c hc hp => hledger.add_preference hc hp, fun limit c u hadd => ?_,
    fun limit v strength u answer hadd => hledger.addEdit_not_rejected limit v strength _ hadd⟩
  rw [← Bool.not_eq_false]
  exact fun hc => ensures_add_preference hledger hc limit _ hadd rfl

/-- The width is to be infinitely far below zero, with a strength that is not a
number. -/
def outlying : Constraint Binary64 :=
  ⟨"outlying", ⟨[.symbolic ⟨.entity ⟨0⟩, .width⟩ (.ofDecimal 1 0)], .infinity⟩, .lessOrEqual,
    ⟨.nan⟩⟩

/-- The preference is accepted, although the width is pinned and only the symbols of
the preference are left in its row. -/
theorem outlying_is_accepted :
    ∃ (s u : Solver Binary64) (answers : List (SolverAnswer Binary64)),
      (empty .standard).run 9 [.add ⟨"pin", ⟨[.symbolic ⟨.entity ⟨0⟩, .width⟩ (.ofDecimal 1 0)],
        .neg (.ofDecimal 10 0)⟩, .equalTo, .required⟩] = .ok (s, answers) ∧
      (s.createRow outlying).1.cells.all (fun c => !c.1.isExternal) = true ∧
      subject? (s.createRow outlying).1 (s.createRow outlying).2.1 ≠ none ∧
      s.add 9 outlying = .ok (u, .ok ()) := by
  have hchain : ((empty .standard : Solver Binary64).run 9 [
        .add ⟨"pin", ⟨[.symbolic ⟨.entity ⟨0⟩, .width⟩ (.ofDecimal 1 0)],
          .neg (.ofDecimal 10 0)⟩, .equalTo, .required⟩]).toOption.any (fun p =>
          (p.1.createRow outlying).1.cells.all (fun c => !c.1.isExternal) &&
          (p.1.add 9 outlying).toOption.any (fun q => decide (q.2.toOption = some ()))) = true := by
    decide +kernel
  obtain ⟨⟨s, answers⟩, hrun, hrest⟩ := exists_ok_of_any hchain
  obtain ⟨hcells, hadded⟩ := Bool.and_eq_true_iff.mp hrest
  obtain ⟨⟨u, answer⟩, hadd, hanswer⟩ := exists_ok_of_any hadded
  obtain ⟨x, hx, -⟩ := (only_required_constraints_are_rejected .standard 9 hrun).1 outlying
    (by decide +kernel) rfl
  cases answer with
  | error e => exact absurd (of_decide_eq_true hanswer) nofun
  | ok ok => exact ⟨s, u, answers, hrun, hcells, by rw [hx]; exact nofun, hadd⟩

end Results

end Solver
end Tether
