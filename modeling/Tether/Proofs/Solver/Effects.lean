import Tether.Proofs.Solver.Contents
import Tether.Proofs.Solver.Stability

/-!
# What calls that succeed do to the books

A call that succeeds changes the list of constraints and the edit variables in one
exact way, whatever happens in the tableau.  Additions come last on the list, removals
take out one constraint, and an edit variable comes and goes with the constraint that
holds it.
-/

namespace Tether
namespace Solver

open Simplex

variable {α : Type} {s u : Solver α} {limit : Nat} {c : Constraint α} {v : Variable}

section Answers

/-- What a call that may fail answers is what it came to. -/
theorem exists_of_answer {ε : Type} {wrap : ε → SolverError} {o : Outcome (Solver α) ε}
    {a : SolverAnswer α} (h : answer wrap o = .ok (u, a)) :
    ∃ result, o = .ok (u, result) ∧ a = .ofExcept wrap result := by
  match o, h with
  | .ok (s, result), h =>
      obtain ⟨rfl, rfl⟩ := Prod.mk.inj (Except.ok.inj h)
      exact ⟨result, rfl, rfl⟩

/-- A call that may fail answers with what it comes to. -/
theorem answer_of_ok {ε : Type} {wrap : ε → SolverError} {o : Outcome (Solver α) ε}
    {result : Except ε Unit} (h : o = .ok (u, result)) :
    answer wrap o = .ok (u, .ofExcept wrap result) := by
  rw [h]
  rfl

/-- A call that may fail is done if it does not fail. -/
theorem ok_of_answer {ε : Type} {wrap : ε → SolverError} {o : Outcome (Solver α) ε}
    (h : answer wrap o = .ok (u, .done)) : o = .ok (u, .ok ()) := by
  obtain ⟨result, ho, hdone⟩ := exists_of_answer h
  cases result with
  | ok _ => exact ho
  | error e => cases hdone

/-- A call whose answer reports a failure has failed so. -/
theorem error_of_answer {ε : Type} {wrap : ε → SolverError}
    (hwrap : Function.Injective wrap) {o : Outcome (Solver α) ε} {e : ε}
    (h : answer wrap o = .ok (u, .failed (wrap e))) : o = .ok (u, .error e) := by
  obtain ⟨result, ho, hfailed⟩ := exists_of_answer h
  cases result with
  | ok _ => cases hfailed
  | error e' => rwa [hwrap (SolverAnswer.failed.inj hfailed)]

end Answers

variable [Scalar α]

section Adding

/-- An addition that succeeds puts the constraint last on the list. -/
theorem Ledger.done_add (h : s.Ledger) (hdone : s.perform limit (.add c) = .ok (u, .done)) :
    u.Ledger ∧ u.constraints.keys = s.constraints.keys ++ [c] ∧ u.edits = s.edits := by
  obtain ⟨hledger, -, hedits, hadded⟩ := h.add limit c _ (ok_of_answer hdone)
  obtain ⟨tag, hentries⟩ := hadded rfl
  refine ⟨hledger, ?_, hedits⟩
  rw [OrderedMap.keys, hentries, List.map_append]
  rfl

end Adding

section Removing

/-- A removal ends exactly the edit variable that the constraint held, whatever the
answer is. -/
theorem Ledger.remove_edits (h : s.Ledger) (limit : Nat) (c : Constraint α) :
    Ensures (s.remove limit c)
      (fun p => p.1.edits = s.edits.filter (fun _ edit => !(edit.constraint == c))) := by
  refine ensures_remove (fun hf => ?_) ?_
  · refine congrArg OrderedMap.mk (List.filter_eq_self.mpr (fun e he => ?_)).symm
    have hnone := List.find?_eq_none.mp hf _ (h.held.installed e he)
    simpa using hnone
  · rintro ⟨installed, tag⟩ hf
    have hc : (installed == c) = true := (OrderedMap.mem_of_find? hf).2
    have hout := (h.reworked_takeOut hf).books
    obtain ⟨hl, -, -, hedits⟩ := (h.releasing_detach hf).releaseVariables
    refine (hl.reoptimize limit RemoveError.internal).mono ?_
    rintro p ⟨-, hb⟩
    simp only [books, Prod.mk.injEq] at hb hout
    rw [hb.2.2.2.trans hedits, detach]
    dsimp only
    rw [hout.2.2.2]
    refine congrArg s.edits.filter ?_
    funext w edit
    rw [Constraint.beq_comm, Constraint.beq_congr hc, Constraint.beq_comm]

/-- A removal that succeeds takes the constraint off the list, and ends the edit variable
that it held. -/
theorem Ledger.done_remove (h : s.Ledger) (hdone : s.perform limit (.remove c) = .ok (u, .done)) :
    u.Ledger ∧ s.hasConstraint c = true ∧ u.constraints = s.constraints.erase c ∧
      u.edits = s.edits.filter (fun _ edit => !(edit.constraint == c)) := by
  have hrun : s.remove limit c = .ok (u, .ok ()) := ok_of_answer hdone
  have hledger := (h.remove limit c _ hrun).1
  cases hf : s.constraints.find? c with
  | none =>
      unfold Solver.remove at hrun
      rw [hf] at hrun
      cases hrun
  | some e =>
      obtain ⟨installed, tag⟩ := e
      refine ⟨hledger, ?_, (ensures_remove_kept hf limit _ hrun).1, h.remove_edits limit c _ hrun⟩
      rw [hasConstraint, ← OrderedMap.isSome_get?, OrderedMap.get?, hf]
      rfl

end Removing

section Editing

/-- An edit variable that is added comes last, held where it was by the constraint that
comes last on the list. -/
theorem Ledger.done_addEdit (h : s.Ledger) {strength : Strength α}
    (hdone : s.perform limit (.addEdit v strength) = .ok (u, .done)) :
    u.Ledger ∧ s.edits.contains v = false ∧ ∃ tag x,
      u.constraints.keys =
        s.constraints.keys ++ [holding v x (.clip strength.value)] ∧
      u.edits.entries =
        s.edits.entries ++ [(v, ⟨tag, holding v x (.clip strength.value), x⟩)] := by
  have hrun := ok_of_answer hdone
  refine ⟨h.addEdit limit v strength _ hrun, ?_⟩
  have hanswer : ∀ p, s.addEdit limit v strength = .ok p → p.2 = .ok () →
      s.edits.contains v = false ∧ ∃ tag x,
        p.1.constraints.keys = s.constraints.keys ++ [holding v x (.clip strength.value)] ∧
        p.1.edits.entries =
          s.edits.entries ++ [(v, ⟨tag, holding v x (.clip strength.value), x⟩)] := by
    refine ensures_addEdit (by simp) (by simp) (fun hv _ => (h.add limit _).mono ?_)
    rintro p ⟨-, -, hedits, hadded⟩
    refine ⟨fun tag hok _ _ => ⟨hv, tag, s.value v, ?_, ?_⟩, fun _ _ _ => by simp,
      fun e _ => by simp⟩
    · obtain ⟨tag', hentries⟩ := hadded hok
      show p.1.constraints.keys = _
      rw [OrderedMap.keys, hentries, List.map_append]
      rfl
    · show (p.1.edits.insert v _).entries = _
      rw [hedits, OrderedMap.entries_insert_of_not_contains hv]
  exact hanswer _ hrun rfl

/-- An edit variable that is removed goes with the constraint that held it. -/
theorem Ledger.done_removeEdit (h : s.Ledger)
    (hdone : s.perform limit (.removeEdit v) = .ok (u, .done)) :
    u.Ledger ∧ ∃ edit, s.edits.get? v = some edit ∧
      u.constraints = s.constraints.erase edit.constraint ∧
      u.edits = (s.edits.erase v).filter (fun _ e => !(e.constraint == edit.constraint)) := by
  have hrun := ok_of_answer hdone
  refine ⟨h.removeEdit limit v _ hrun, ?_⟩
  unfold Solver.removeEdit at hrun
  cases hv : s.edits.get? v with
  | none =>
      rw [hv] at hrun
      cases hrun
  | some edit =>
      rw [hv] at hrun
      dsimp only at hrun
      refine ⟨edit, rfl, ?_⟩
      have herased : Ledger { s with edits := s.edits.erase v } := h.withEdits (h.held.erase v)
      cases hremove : Solver.remove limit { s with edits := s.edits.erase v } edit.constraint with
      | error halt => rw [hremove] at hrun; cases hrun
      | ok p =>
          obtain ⟨w, answer⟩ := p
          rw [hremove] at hrun
          cases answer with
          | error e => cases (Prod.mk.inj (Except.ok.inj hrun)).2
          | ok r =>
              obtain ⟨rfl, -⟩ := Prod.mk.inj (Except.ok.inj hrun)
              have hremoved : Solver.perform limit { s with edits := s.edits.erase v }
                  (.remove edit.constraint) = .ok (w, .done) := by
                show (Solver.remove limit _ _).map _ = _
                rw [hremove]
                rfl
              exact (herased.done_remove hremoved).2.2

/-- A suggestion that succeeds changes the value of the edit variable and nothing else. -/
theorem Ledger.done_suggest (h : s.Ledger) {x : α}
    (hdone : s.perform limit (.suggest v x) = .ok (u, .done)) :
    u.Ledger ∧ u.constraints = s.constraints ∧
      u.edits = s.edits.modify v (fun edit => { edit with constant := x }) := by
  have hrun := ok_of_answer hdone
  obtain ⟨-, hconstraints, -, hedits⟩ := ensures_suggest_books s limit v x _ hrun
  exact ⟨h.suggest limit v x _ hrun, hconstraints, hedits⟩

end Editing

end Solver
end Tether
