import Tether.Proofs.Solver.Effects
import Tether.Proofs.Solver.Presence
import Tether.Scalar.Rational

/-!
# What answers tell of membership

An addition that is answered leaves its constraint installed exactly if it is done or calls
the constraint a duplicate, with one exception: the objective is optimized after the
constraint was put on the list, and a breakdown of that optimization is reported though the
constraint stands.

An edit variable is entered last, so a failure never leaves one behind.  The failures to
begin one are those of adding the constraint that is to hold it.
-/

namespace Tether
namespace Solver

open Simplex

variable {α : Type} [Scalar α] {s u : Solver α} {c : Constraint α} {limit : Nat}

section Adding

/-- The constraint is new, and last on the list of what came of the solver. -/
def Enlists (s : Solver α) (c : Constraint α) (u : Solver α) : Prop :=
  s.hasConstraint c = false ∧
    ∃ tag, u.constraints.entries = s.constraints.entries ++ [(c, tag)]

theorem Enlists.hasConstraint (h : s.Enlists c u) : u.hasConstraint c = true := by
  obtain ⟨-, tag, hentries⟩ := h
  have hm : (c, tag) ∈ u.constraints.entries :=
    hentries ▸ List.mem_append_right _ (List.mem_singleton_self _)
  exact hasConstraint_of_mem hm

/-- What an addition tells: either nothing on the list has changed, and it fails, by calling
the constraint a duplicate exactly if that is on the list, or the constraint was put on the
list, and the addition can only break down. -/
inductive Membership (s : Solver α) (c : Constraint α) :
    Solver α × Except AddError Unit → Prop
  | kept {u why} (hconstraints : u.constraints = s.constraints)
      (hwhy : why = .duplicateConstraint ↔ s.hasConstraint c = true) :
      Membership s c (u, .error why)
  | enlisted {u answer} (henlists : s.Enlists c u)
      (hanswer : ∀ why, answer = .error why → ∃ text, why = .internal text) :
      Membership s c (u, answer)

theorem ensures_membership (s : Solver α) (limit : Nat) (c : Constraint α) :
    Ensures (s.add limit c) (Membership s c) := by
  cases hc : s.hasConstraint c with
  | true =>
      -- Only the first branch is for a constraint that is on the list.
      have habsurd : s.hasConstraint c ≠ false := by simp [hc]
      exact ensures_add (fun _ => .kept rfl (by simp [hc]))
        (fun h => absurd h habsurd) (fun h => absurd h habsurd) (fun h => absurd h habsurd)
        (fun h => absurd h habsurd)
  | false =>
      refine (ensures_accession s limit c).mono ?_
      rintro p ⟨haccession, -⟩
      cases haccession with
      | refused hconstraints _ hwhy =>
          exact .kept hconstraints ⟨hwhy, fun h => by simp [hc] at h⟩
      | installed _ hconstraints _ hanswer =>
          have hentries := OrderedMap.entries_insert_of_not_contains hc
          exact .enlisted ⟨hc, _, (congrArg _ hconstraints).trans (hentries _)⟩ hanswer
      | broken hconstraints _ => exact .kept hconstraints (by simp [hc])

/-- An addition that does not break down leaves its constraint installed exactly if it is
done or finds it installed. -/
theorem Membership.hasConstraint_iff {answer : Except AddError Unit}
    (h : Membership s c (u, answer)) (hsound : ∀ text, answer ≠ .error (.internal text)) :
    u.hasConstraint c = true ↔ answer = .ok () ∨ answer = .error .duplicateConstraint := by
  cases h with
  | kept hconstraints hwhy => simp [hasConstraint, hconstraints, hwhy]
  | enlisted henlists hanswer =>
      simp only [henlists.hasConstraint, true_iff]
      cases answer with
      | ok _ => exact .inl rfl
      | error why =>
          obtain ⟨text, rfl⟩ := hanswer why rfl
          exact absurd rfl (hsound text)

/-- A rejected addition leaves the list as it was. -/
theorem Membership.of_rejection {why : AddError} (h : Membership s c (u, .error why))
    (hsound : ∀ text, why ≠ .internal text) :
    u.constraints = s.constraints ∧
      (why = .duplicateConstraint ↔ s.hasConstraint c = true) := by
  cases h with
  | kept hconstraints hwhy => exact ⟨hconstraints, hwhy⟩
  | enlisted _ hanswer =>
      obtain ⟨text, htext⟩ := hanswer why rfl
      exact absurd htext (hsound text)

/-- A breakdown leaves the list as it was, or with the constraint on it. -/
theorem Membership.of_breakdown {text : String}
    (h : Membership s c (u, .error (.internal text))) :
    u.constraints = s.constraints ∨ s.Enlists c u := by
  cases h with
  | kept hconstraints _ => exact .inl hconstraints
  | enlisted henlists _ => exact .inr henlists

end Adding

section Editing

variable {v : Variable} {strength : Strength α}

/-- What beginning an edit tells: either no edit variable has changed, and it fails, or it is
done and the variable is one. -/
inductive EditMembership (s : Solver α) (v : Variable) (c : Constraint α) :
    Solver α × Except EditError Unit → Prop
  | rejected {u why} (hedits : u.edits = s.edits) (hconstraints : u.constraints = s.constraints)
      (hpresent : s.hasEditVariable v = true → why = .duplicateEditVariable)
      (hwhy : why = .duplicateEditVariable →
        s.hasEditVariable v = true ∨ s.hasConstraint c = true) :
      EditMembership s v c (u, .error why)
  | broken {u text} (hedits : u.edits = s.edits) (hv : s.hasEditVariable v = false)
      (hconstraints : u.constraints = s.constraints ∨ s.Enlists c u) :
      EditMembership s v c (u, .error (.internal text))
  | entered {u : Solver α} (hv : u.hasEditVariable v = true) : EditMembership s v c (u, .ok ())

theorem Ledger.editMembership (h : s.Ledger) (limit : Nat) (v : Variable)
    (strength : Strength α) :
    Ensures (s.addEdit limit v strength)
      (EditMembership s v (holding v (s.value v) (.clip strength.value))) := by
  refine ensures_addEdit (fun hv => .rejected rfl rfl (fun _ => rfl) (fun _ => .inl hv))
    (fun hv => .rejected rfl rfl (by simp [hv]) (by simp)) (fun hv _ => ?_)
  refine ((h.add limit _).and (ensures_membership s limit _)).mono ?_
  rintro ⟨u, answer⟩ ⟨⟨-, -, hedits, -⟩, hmember⟩
  refine ⟨fun tag _ _ => .entered ?_, fun hok hlost => ?_, fun why hwhy => ?_⟩
  · exact OrderedMap.contains_insert_self _ _ _
  · -- A constraint that was added is on the list.
    obtain rfl : answer = .ok () := hok
    exact absurd hlost (get?_ne_none ((hmember.hasConstraint_iff (by simp)).mpr (.inl rfl)))
  · obtain rfl : answer = .error why := hwhy
    cases why with
    | duplicateConstraint =>
        obtain ⟨hlist, hdup⟩ := hmember.of_rejection (by simp)
        exact .rejected hedits hlist (fun _ => rfl) (fun _ => .inr (hdup.mp rfl))
    | unsatisfiableConstraint =>
        obtain ⟨hlist, -⟩ := hmember.of_rejection (by simp)
        exact .rejected hedits hlist (by simp [hv]) (by simp [AddError.toEdit])
    | internal text => exact .broken hedits hv hmember.of_breakdown

end Editing

section Results

variable {calls : List (SolverCall α)} {answers : List (SolverAnswer α)}

/-- After every run, an addition that does not break down leaves its constraint installed
exactly if it is done or calls it a duplicate.  A variable for which an edit begins is an edit
variable afterwards only if that is done or called a duplicate; it is one if that is done,
and if it is called a duplicate while what is to hold the variable was not installed.  A
failure changes no edit variable and nothing on the list, but a breakdown may come after the
constraint was put last on the list. -/
theorem answers_tell_membership (settings : Settings α) (limit : Nat)
    (hrun : (empty settings).run limit calls = .ok (s, answers)) :
    (∀ c u answer, s.perform limit (.add c) = .ok (u, answer) →
      ((∀ text, answer ≠ .failed (.addConstraint (.internal text))) →
        (u.hasConstraint c = true ↔
          answer = .done ∨ answer = .failed (.addConstraint .duplicateConstraint))) ∧
      u.edits = s.edits ∧
      (answer = .done ∨ u.constraints = s.constraints ∨
        (∃ text, answer = .failed (.addConstraint (.internal text))) ∧ s.Enlists c u)) ∧
    ∀ v strength u answer, s.perform limit (.addEdit v strength) = .ok (u, answer) →
      (answer = .done → u.hasEditVariable v = true) ∧
      (answer = .failed (.editVariable .duplicateEditVariable) →
        s.hasConstraint (holding v (s.value v) (.clip strength.value)) = false →
        u.hasEditVariable v = true) ∧
      (u.hasEditVariable v = true →
        answer = .done ∨ answer = .failed (.editVariable .duplicateEditVariable)) ∧
      (answer = .done ∨ u.edits = s.edits ∧ (u.constraints = s.constraints ∨
        (∃ text, answer = .failed (.editVariable (.internal text))) ∧
          s.Enlists (holding v (s.value v) (.clip strength.value)) u)) := by
  have hledger : s.Ledger := ledger_run settings limit calls _ hrun
  constructor
  · intro c u answer hcall
    obtain ⟨result, hadd, rfl⟩ := exists_of_answer hcall
    have hmember := ensures_membership s limit c _ hadd
    refine ⟨fun hsound => ?_, (hledger.add limit c _ hadd).2.2.1, ?_⟩
    · have hsound' : ∀ text, result ≠ .error (.internal text) := by
        rintro text rfl
        exact hsound text rfl
      rw [hmember.hasConstraint_iff hsound']
      cases result <;> simp [SolverAnswer.ofExcept]
    · cases hmember with
      | kept hconstraints _ => exact .inr (.inl hconstraints)
      | enlisted henlists hanswer =>
          cases result with
          | ok _ => exact .inl rfl
          | error why =>
              obtain ⟨text, rfl⟩ := hanswer why rfl
              exact .inr (.inr ⟨⟨text, rfl⟩, henlists⟩)
  · intro v strength u answer hcall
    obtain ⟨result, hadd, rfl⟩ := exists_of_answer hcall
    cases hledger.editMembership limit v strength _ hadd with
    | rejected hedits hconstraints hpresent hwhy =>
        refine ⟨fun h => (by cases h), fun hdup hnew => ?_, fun hv => .inr ?_,
          .inr ⟨hedits, .inl hconstraints⟩⟩
        · have hdup := SolverError.editVariable.inj (SolverAnswer.failed.inj hdup)
          rw [hasEditVariable, hedits]
          exact (hwhy hdup).resolve_right (by simp [hnew])
        · rw [hasEditVariable, hedits] at hv
          rw [hpresent hv]
          rfl
    | broken hedits hv hconstraints =>
        refine ⟨fun h => (by cases h), fun h => (by cases h), fun hu => ?_,
          .inr ⟨hedits, hconstraints.imp_right (fun he => ⟨⟨_, rfl⟩, he⟩)⟩⟩
        rw [hasEditVariable, hedits] at hu
        exact absurd (hv.symm.trans hu) (by simp)
    | entered hv => exact ⟨fun _ => hv, fun _ _ => hv, fun _ => .inl rfl, .inl rfl⟩

/-- An edit that begins twice is called a duplicate, and the variable is an edit variable
still. -/
theorem edit_begun_twice_is_there :
    ∃ (s u : Solver Rat) (answers : List (SolverAnswer Rat)),
      (empty .standard).run 9 [.addEdit ⟨.entity ⟨0⟩, .width⟩ .strong] = .ok (s, answers) ∧
      s.perform 9 (.addEdit ⟨.entity ⟨0⟩, .width⟩ .weak) =
        .ok (u, .failed (.editVariable .duplicateEditVariable)) ∧
      u.hasEditVariable ⟨.entity ⟨0⟩, .width⟩ = true := by
  have hchain : ((empty .standard : Solver Rat).run 9
      [.addEdit ⟨.entity ⟨0⟩, .width⟩ .strong]).toOption.any (fun p =>
        (!p.1.hasConstraint (holding ⟨.entity ⟨0⟩, .width⟩ (p.1.value ⟨.entity ⟨0⟩, .width⟩)
          (.clip (Strength.weak (α := Rat)).value))) &&
        (p.1.addEdit 9 ⟨.entity ⟨0⟩, .width⟩ .weak).toOption.any
          (fun q => decide (q.2 = .error .duplicateEditVariable))) = true := by
    decide +kernel
  obtain ⟨⟨s, answers⟩, hrun, hrest⟩ := exists_ok_of_any hchain
  obtain ⟨hnew, hrest⟩ := Bool.and_eq_true_iff.mp hrest
  obtain ⟨⟨u, result⟩, hadd, hresult⟩ := exists_ok_of_any hrest
  obtain rfl : result = .error .duplicateEditVariable := of_decide_eq_true hresult
  have hcall : s.perform 9 (.addEdit ⟨.entity ⟨0⟩, .width⟩ .weak) =
      .ok (u, .failed (.editVariable .duplicateEditVariable)) := answer_of_ok hadd
  have htold := (answers_tell_membership .standard 9 hrun).2 _ _ u _ hcall
  exact ⟨s, u, answers, hrun, hcall, htold.2.1 rfl (by simpa using hnew)⟩

/-- A constraint of negative strength is answered with a breakdown though it is installed,
and an edit is called a duplicate though the variable is none: what is to hold it was
installed by the caller. -/
theorem answers_mislead_on_membership :
    (∃ (c : Constraint Rat) (u : Solver Rat),
      (empty .standard).perform 9 (.add c) =
        .ok (u, .failed (.addConstraint (.internal "the objective is unbounded"))) ∧
      u.hasConstraint c = true) ∧
    ∃ (c : Constraint Rat) (v : Variable) (s u : Solver Rat) (answers : List (SolverAnswer Rat)),
      (empty .standard).run 9 [.add c] = .ok (s, answers) ∧
      s.perform 9 (.addEdit v .weak) =
        .ok (u, .failed (.editVariable .duplicateEditVariable)) ∧
      u.hasEditVariable v = false := by
  constructor
  · have hbroken : ((empty .standard : Solver Rat).add 9 ⟨"odd",
        ⟨[.symbolic ⟨.entity ⟨0⟩, .width⟩ 1], 0⟩, .equalTo, ⟨-1⟩⟩).toOption.any (fun p =>
          decide (p.2 = .error (.internal "the objective is unbounded")) &&
          p.1.hasConstraint ⟨"odd", ⟨[.symbolic ⟨.entity ⟨0⟩, .width⟩ 1], 0⟩, .equalTo,
            ⟨-1⟩⟩) = true := by
      decide +kernel
    obtain ⟨⟨u, result⟩, hadd, hrest⟩ := exists_ok_of_any hbroken
    obtain ⟨hresult, hinstalled⟩ := Bool.and_eq_true_iff.mp hrest
    obtain rfl : result = .error (.internal "the objective is unbounded") :=
      of_decide_eq_true hresult
    exact ⟨_, u, answer_of_ok hadd, hinstalled⟩
  · have hchain : ((empty .standard : Solver Rat).run 9 [.add ⟨"zero",
        ⟨[.symbolic ⟨.entity ⟨0⟩, .width⟩ 1], 0⟩, .equalTo, .weak⟩]).toOption.any (fun p =>
          (p.1.addEdit 9 ⟨.entity ⟨0⟩, .width⟩ .weak).toOption.any (fun q =>
            decide (q.2 = .error .duplicateEditVariable) &&
            !q.1.hasEditVariable ⟨.entity ⟨0⟩, .width⟩)) = true := by
      decide +kernel
    obtain ⟨⟨s, answers⟩, hrun, hrest⟩ := exists_ok_of_any hchain
    obtain ⟨⟨u, result⟩, hadd, hrest⟩ := exists_ok_of_any hrest
    obtain ⟨hresult, hmissing⟩ := Bool.and_eq_true_iff.mp hrest
    obtain rfl : result = .error .duplicateEditVariable := of_decide_eq_true hresult
    exact ⟨_, _, s, u, answers, hrun, answer_of_ok hadd, by simpa using hmissing⟩

end Results

end Solver
end Tether
