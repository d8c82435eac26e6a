import Tether.Proofs.Solver.Contents
import Tether.Proofs.Solver.Variables

/-!
# How long a constraint stays installed

An installed constraint stays installed, whatever calls succeed or fail, until a call
takes one of the same content out: a removal, the end of an edit variable, or a reset.
An addition that is done or called a duplicate leaves its constraint installed.

A run may be cut into two wherever one wants, so what an answer says about a state
carries over the calls that follow.
-/

namespace Tether

open Simplex

variable {α : Type} [Scalar α]

section Sparing

/-- Whether a call leaves a constraint installed if it is.  The end of an edit variable
takes a constraint out that the call does not name, so no such call counts. -/
def SolverCall.Spares (c : Constraint α) : SolverCall α → Prop
  | .remove d => (d == c) = false
  | .removeAll ds => ∀ d ∈ ds, (d == c) = false
  | .removeEdit _ => False
  | .reset => False
  | _ => True

/-- The failure that an answer reports. -/
def SolverAnswer.failure? : SolverAnswer α → Option SolverError
  | .failed e => some e
  | _ => none

end Sparing

namespace Solver

variable {s u : Solver α} {c d : Constraint α} {limit : Nat}
  {calls first rest : List (SolverCall α)} {answers : List (SolverAnswer α)}

section Installed

theorem hasConstraint_eq_any_keys (s : Solver α) (c : Constraint α) :
    s.hasConstraint c = s.constraints.keys.any (· == c) :=
  OrderedMap.contains_eq_any_keys _ _

theorem hasConstraint_of_mem {tag : Tag} (hm : (c, tag) ∈ s.constraints.entries) :
    s.hasConstraint c = true :=
  List.any_eq_true.mpr ⟨(c, tag), hm, Constraint.beq_refl c⟩

theorem get?_ne_none (h : s.hasConstraint c = true) : s.constraints.get? c ≠ none := by
  intro hnone
  rw [hasConstraint, OrderedMap.get?_eq_none_iff.mp hnone] at h
  cases h

theorem hasConstraint_of_keys (h : u.constraints.keys = s.constraints.keys) :
    u.hasConstraint c = s.hasConstraint c := by
  rw [hasConstraint_eq_any_keys, hasConstraint_eq_any_keys, h]

theorem hasConstraint_of_insert {tag : Tag} (hnew : s.hasConstraint d = false)
    (h : u.constraints = s.constraints.insert d tag) :
    u.hasConstraint c = (s.hasConstraint c || d == c) := by
  have hkeys : u.constraints.keys = s.constraints.keys ++ [d] := by
    rw [h, OrderedMap.keys_insert, if_neg (by simpa [hasConstraint] using hnew)]
  rw [hasConstraint_eq_any_keys, hasConstraint_eq_any_keys, hkeys, List.any_append]
  simp

/-- An addition takes no constraint out. -/
theorem ensures_add_keeps (hc : s.hasConstraint c = true) (limit : Nat) (d : Constraint α) :
    Ensures (s.add limit d) (fun p => p.1.hasConstraint c = true) := by
  refine (ensures_accession s limit d).mono ?_
  rintro p ⟨haccession, -⟩
  cases haccession with
  | refused hconstraints _ _ => rwa [hasConstraint_of_keys (congrArg _ hconstraints)]
  | installed hnew hconstraints _ _ => rw [hasConstraint_of_insert hnew hconstraints, hc]; rfl
  | broken hconstraints _ => rwa [hasConstraint_of_keys (congrArg _ hconstraints)]

/-- An addition that is done or called a duplicate leaves its constraint installed. -/
theorem ensures_add_present (s : Solver α) (limit : Nat) (c : Constraint α) :
    Ensures (s.add limit c) (fun p => p.2 = .ok () ∨ p.2 = .error .duplicateConstraint →
      p.1.hasConstraint c = true) := by
  refine (ensures_accession s limit c).mono ?_
  rintro p ⟨haccession, -⟩ hanswer
  cases haccession with
  | refused hconstraints _ hwhy =>
      rw [hasConstraint_of_keys (congrArg _ hconstraints)]
      rcases hanswer with h | h
      · cases h
      · exact hwhy (Except.error.inj h)
  | installed hnew hconstraints _ _ =>
      rw [hasConstraint_of_insert hnew hconstraints, Constraint.beq_refl, Bool.or_true]
  | broken _ _ => rcases hanswer with h | h <;> cases h

/-- A removal takes out no constraint of another content. -/
theorem Ledger.remove_keeps (hs : s.Ledger) (hc : s.hasConstraint c = true)
    (hd : (d == c) = false) (limit : Nat) :
    Ensures (s.remove limit d) (fun p => p.1.hasConstraint c = true) := by
  refine (ensures_departure hs limit d).mono ?_
  rintro p ⟨hdeparture, -⟩
  cases hdeparture with
  | unknown hconstraints _ => rwa [hasConstraint_of_keys (congrArg _ hconstraints)]
  | removed _ hconstraints _ =>
      rw [hasConstraint_eq_any_keys] at hc ⊢
      obtain ⟨k, hk, hkc⟩ := List.any_eq_true.mp hc
      have hkd : ¬ (k == d) = true := by
        rw [Constraint.beq_congr hkc, Constraint.beq_comm, hd]
        exact Bool.false_ne_true
      rw [hconstraints, OrderedMap.keys_erase]
      have hkept := (List.mem_eraseP_of_neg (p := fun k => k == d) hkd).mpr hk
      exact List.any_eq_true.mpr ⟨k, hkept, hkc⟩

/-- A call that spares an installed constraint leaves it installed. -/
theorem Ledger.perform_keeps (hs : s.Ledger) (hc : s.hasConstraint c = true)
    {call : SolverCall α} (hspares : call.Spares c) (limit : Nat) :
    Ensures (s.perform limit call) (fun p => p.1.hasConstraint c = true) := by
  cases call with
  | add d => exact Ensures.map ((ensures_add_keeps hc limit d).mono (fun _ hp => hp))
  | addAll ds =>
      refine Ensures.map (ensures_forEach (I := fun s => s.hasConstraint c = true) ?_
        (fun _ hs => hs) hc)
      exact fun s hs d _ => (ensures_add_keeps hs limit d).mono
        (fun _ hp => ⟨fun _ => hp, fun _ _ => hp⟩)
  | remove d => exact Ensures.map ((hs.remove_keeps hc hspares limit).mono (fun _ hp => hp))
  | removeAll ds =>
      exact Ensures.map (hs.removeAll_maintains (I := fun s => s.hasConstraint c = true) hc
        (fun hs hc d hd => hs.remove_keeps hc (hspares d hd) limit))
  | addEdit v strength =>
      refine Ensures.map (ensures_addEdit (fun _ => hc) (fun _ => hc) (fun _ _ => ?_))
      refine (ensures_add_keeps hc limit _).mono (fun _ hp => ⟨?_, ?_, ?_⟩)
      · exact fun _ _ _ => hp
      · exact fun _ _ _ => hp
      · exact fun _ _ => hp
  | removeEdit v => exact hspares.elim
  | suggest v x =>
      refine Ensures.map ((ensures_suggest_books s limit v x).mono (fun p hp => ?_))
      show p.1.hasConstraint c = true
      rwa [hasConstraint_of_keys (congrArg _ hp.2.1)]
  | reset => exact hspares.elim
  | hasConstraint d => exact ensures_ok hc
  | hasEditVariable v => exact ensures_ok hc
  | hasVariable v => exact ensures_ok hc
  | value v => exact ensures_ok hc
  | flush => exact ensures_ok hc
  | constraints => exact ensures_ok hc
  | settings => exact ensures_ok hc

theorem Ledger.run_keeps (hs : s.Ledger) (hc : s.hasConstraint c = true)
    (hspares : ∀ call ∈ calls, call.Spares c) (limit : Nat) :
    Ensures (s.run limit calls) (fun p => p.1.hasConstraint c = true) := by
  have hstep : ∀ s : Solver α, s.Ledger ∧ s.hasConstraint c = true → ∀ call ∈ calls,
      Ensures (s.perform limit call) (fun p => True → p.1.Ledger ∧ p.1.hasConstraint c = true) :=
    fun s hs call hcall => ((hs.1.perform limit call).and
      (hs.1.perform_keeps hs.2 (hspares call hcall) limit)).mono (fun _ hp _ => hp)
  refine (ensures_run (A := fun _ => True) limit hstep ⟨hs, hc⟩).mono ?_
  exact fun _ hp => (hp (fun _ _ => trivial)).2

end Installed

section Cutting

/-- A run of two parts starts its second part where the first one ends. -/
theorem run_append (s : Solver α) (limit : Nat) (first rest : List (SolverCall α)) :
    s.run limit (first ++ rest) = (s.run limit first).bind (fun p =>
      (p.1.run limit rest).map (fun q => (q.1, p.2 ++ q.2))) := by
  induction first generalizing s with
  | nil =>
      show s.run limit rest = (s.run limit rest).map (fun q => (q.1, q.2))
      cases s.run limit rest <;> rfl
  | cons call others ih =>
      rw [List.cons_append, Solver.run, Solver.run]
      cases s.perform limit call with
      | error halt => rfl
      | ok p =>
          show (p.1.run limit (others ++ rest)).map _ = _
          rw [ih]
          cases hothers : p.1.run limit others with
          | error halt => simp [Except.bind, Except.map, hothers]
          | ok q =>
              cases hrest : q.1.run limit rest <;>
                simp [Except.bind, Except.map, hothers, hrest]

theorem exists_run_of_append (h : s.run limit (first ++ rest) = .ok (u, answers)) :
    ∃ w earlier later, s.run limit first = .ok (w, earlier) ∧
      w.run limit rest = .ok (u, later) ∧ answers = earlier ++ later := by
  have hcut : Ensures (s.run limit (first ++ rest)) (fun p => ∃ w earlier later,
      s.run limit first = .ok (w, earlier) ∧ w.run limit rest = .ok (p.1, later) ∧
        p.2 = earlier ++ later) := by
    rw [run_append]
    exact Ensures.bind (fun p hp => Ensures.map (fun q hq => ⟨p.1, p.2, q.2, hp, hq, rfl⟩))
  exact hcut _ h

/-- A run gives an answer to each of its calls. -/
theorem length_answers (s : Solver α) (limit : Nat) (calls : List (SolverCall α)) :
    Ensures (s.run limit calls) (fun p => p.2.length = calls.length) := by
  induction calls generalizing s with
  | nil => exact ensures_ok rfl
  | cons call rest ih =>
      exact Ensures.bind (fun p _ => Ensures.map ((ih p.1).mono (fun _ hq => congrArg (· + 1) hq)))

/-- A run starts with its first call. -/
theorem exists_perform_of_cons {call : SolverCall α}
    (h : s.run limit (call :: rest) = .ok (u, answers)) :
    ∃ w answer later, s.perform limit call = .ok (w, answer) ∧ w.run limit rest = .ok (u, later) ∧
      answers = answer :: later := by
  have hcut : Ensures (s.run limit (call :: rest)) (fun p => ∃ w answer later,
      s.perform limit call = .ok (w, answer) ∧ w.run limit rest = .ok (p.1, later) ∧
        p.2 = answer :: later) :=
    Ensures.bind (fun p hp => Ensures.map (fun q hq => ⟨p.1, p.2, q.2, hp, hq, rfl⟩))
  exact hcut _ h

/-- The call in the middle of a run starts where the calls before it end. -/
theorem exists_perform_of_run {call : SolverCall α}
    (h : s.run limit (first ++ call :: rest) = .ok (u, answers)) :
    ∃ w earlier w' answer later, s.run limit first = .ok (w, earlier) ∧
      w.perform limit call = .ok (w', answer) ∧ w'.run limit rest = .ok (u, later) ∧
      answers = earlier ++ answer :: later ∧ earlier.length = first.length := by
  obtain ⟨w, earlier, others, hfirst, hothers, rfl⟩ := exists_run_of_append h
  obtain ⟨w', answer, later, hcall, hrest, rfl⟩ := exists_perform_of_cons hothers
  exact ⟨w, earlier, w', answer, later, hfirst, hcall, hrest, rfl,
    length_answers s limit first _ hfirst⟩

end Cutting

section Lasting

/-- An addition that is not refused leaves its constraint installed. -/
theorem ensures_present_or_refused (s : Solver α) (limit : Nat) (c : Constraint α) :
    Ensures (s.perform limit (.add c)) (fun p => p.1.hasConstraint c = true ∨
      ∃ why, why ≠ .duplicateConstraint ∧ p.2 = .failed (.addConstraint why)) := by
  refine Ensures.map ((ensures_add_present s limit c).mono ?_)
  rintro ⟨u, answer⟩ hpresent
  cases answer with
  | ok _ => exact .inl (hpresent (.inl rfl))
  | error why =>
      by_cases hwhy : why = .duplicateConstraint
      · subst hwhy
        exact .inl (hpresent (.inr rfl))
      · exact .inr ⟨why, hwhy, rfl⟩

/-- A constraint that is added in the middle of a run is installed at its end, or its
addition was refused, or a later call does not spare it. -/
theorem Ledger.installed_or_refused (hs : s.Ledger)
    (hrun : s.run limit (first ++ .add c :: rest) = .ok (u, answers)) :
    u.hasConstraint c = true ∨
      (∃ why, why ≠ .duplicateConstraint ∧
        answers[first.length]? = some (.failed (.addConstraint why))) ∨
      ∃ call ∈ rest, ¬ call.Spares c := by
  obtain ⟨w, earlier, w', answer, later, hfirst, hcall, hrest, rfl, hlength⟩ :=
    exists_perform_of_run hrun
  rcases ensures_present_or_refused w limit c _ hcall with hpresent | ⟨why, hwhy, hanswer⟩
  · by_cases hspares : ∀ call ∈ rest, call.Spares c
    · have hw : w.Ledger := hs.run limit first _ hfirst
      have hw' : w'.Ledger := hw.perform limit (.add c) _ hcall
      exact .inl (hw'.run_keeps hpresent hspares limit _ hrest)
    · exact .inr (.inr (by simpa using hspares))
  · refine .inr (.inl ⟨why, hwhy, ?_⟩)
    rw [← hlength, List.getElem?_append_right (Nat.le_refl _), Nat.sub_self,
      List.getElem?_cons_zero]
    exact congrArg some hanswer

end Lasting

end Solver
end Tether
