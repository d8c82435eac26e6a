import Tether.Proofs.Scalar.Binary64
import Tether.Proofs.Solver.Presence
import Tether.Proofs.Solver.Reports

/-!
# Flushing twice

A flush remembers what it hands out, and a second flush compares with that.  So the
second one hands out a variable only if its value is not equal to itself: an
arithmetic in which every value is equal to itself makes flushes idempotent, and in
double precision exactly the variables whose value is not a number come out again, at
every flush.  A few finite suggestions suffice for such a value, since the difference
of two of them may be infinite.
-/

namespace Tether

open Simplex

variable {α : Type}

section Questions

/-- Whether a call only asks. -/
def SolverCall.asks : SolverCall α → Bool
  | .hasConstraint _ | .hasEditVariable _ | .hasVariable _ | .value _ => true
  | .constraints | .settings => true
  | _ => false

end Questions

namespace Solver

theorem flushOutcome_eq_noUpdates_iff {updates : List (Variable × α)} :
    flushOutcome updates = .noUpdates ↔ updates = [] := by
  cases updates <;> simp [flushOutcome]

variable [Scalar α] {s : Solver α} {limit : Nat}

section Asking

theorem perform_of_asks (s : Solver α) (limit : Nat) {q : SolverCall α} (h : q.asks = true) :
    ∃ answer, s.perform limit q = .ok (s, answer) := by
  cases q with
  | hasConstraint c => exact ⟨_, rfl⟩
  | hasEditVariable v => exact ⟨_, rfl⟩
  | hasVariable v => exact ⟨_, rfl⟩
  | value v => exact ⟨_, rfl⟩
  | constraints => exact ⟨_, rfl⟩
  | settings => exact ⟨_, rfl⟩
  | add c => cases h
  | addAll cs => cases h
  | remove c => cases h
  | removeAll cs => cases h
  | addEdit v strength => cases h
  | removeEdit v => cases h
  | suggest v x => cases h
  | flush => cases h
  | reset => cases h

/-- Questions are answered and change nothing. -/
theorem run_of_asks (s : Solver α) (limit : Nat) {questions : List (SolverCall α)}
    (h : ∀ q ∈ questions, q.asks = true) :
    ∃ answers, s.run limit questions = .ok (s, answers) := by
  induction questions with
  | nil => exact ⟨[], rfl⟩
  | cons q rest ih =>
      obtain ⟨first, hfirst⟩ := perform_of_asks s limit (h q List.mem_cons_self)
      obtain ⟨others, hothers⟩ := ih (fun q hq => h q (List.mem_cons_of_mem _ hq))
      refine ⟨first :: others, ?_⟩
      rw [run, hfirst]
      show (s.run limit rest).map _ = _
      rw [hothers]
      rfl

/-- A flush, questions and another flush: the second flush finds what the first one
left. -/
theorem run_flush_twice (s : Solver α) (limit : Nat) {questions : List (SolverCall α)}
    (h : ∀ q ∈ questions, q.asks = true) :
    ∃ between, s.run limit (.flush :: (questions ++ [.flush])) =
      .ok (s.flush.1.flush.1, .updates (flushOutcome s.pending) s.pending ::
        (between ++ [.updates (flushOutcome s.flush.1.pending) s.flush.1.pending])) := by
  obtain ⟨between, hbetween⟩ := run_of_asks s.flush.1 limit h
  refine ⟨between, ?_⟩
  show (s.flush.1.run limit (questions ++ [.flush])).map _ = _
  rw [run_append, hbetween]
  rfl

end Asking

section Repeating

variable (hlaw : ∀ x y : α, Scalar.equals x y = true → Scalar.equals y y = true)

include hlaw

/-- What a flush leaves of an entry is stale only if the value is not equal to itself. -/
theorem isStale_after_flush (s : Solver α) (entry : VariableEntry α) :
    s.flush.1.isStale (if s.isStale entry then
        { entry with reported := some (s.symbolValue entry.symbol) } else entry) =
      !Scalar.equals (s.symbolValue entry.symbol) (s.symbolValue entry.symbol) := by
  split
  · rfl
  · rename_i hfresh
    change s.isStale entry = _
    rw [Bool.not_eq_true] at hfresh
    rw [hfresh]
    unfold isStale at hfresh
    split at hfresh
    · cases hfresh
    · rw [hlaw _ _ (by simpa using hfresh)]
      rfl

/-- A second flush hands out the variables whose value is not equal to itself. -/
theorem pending_flush (s : Solver α) :
    s.flush.1.pending =
      (s.unknowns.entries.map (fun e => (e.1, s.symbolValue e.2.symbol))).filter
        (fun p => !Scalar.equals p.2 p.2) := by
  rw [pending_eq]
  change ((s.unknowns.entries.map _).filter _).map _ = _
  simp only [List.filter_map, List.map_map]
  congr 1
  · funext e
    dsimp only [Function.comp_apply]
    split <;> rfl
  · congr 1
    funext e
    exact isStale_after_flush hlaw s e.2

end Repeating

section Numbers

variable {s : Solver Binary64} {calls questions : List (SolverCall Binary64)}
  {answers : List (SolverAnswer Binary64)}

/-- What is known of the entries of a reachable solver can be read by variable. -/
theorem entries_eq_values {s : Solver α} (hkeys : s.unknowns.keys.Nodup) :
    s.unknowns.entries.map (fun e => (e.1, s.symbolValue e.2.symbol)) =
      s.unknowns.keys.map (fun v => (v, s.value v)) := by
  rw [OrderedMap.keys, List.map_map]
  refine List.map_congr_left (fun e he => ?_)
  have hget : s.unknowns.get? e.1 = some e.2 := (OrderedMap.get?_eq_some_iff hkeys).mpr he
  rw [Function.comp_apply, value, value?, hget]
  rfl

/-- After every run, whatever numbers went into it and with any questions in between,
the second of two flushes hands out exactly the known variables whose value is not a
number, with that value.  So it answers that there are no updates just if the value of
every known variable is a number. -/
theorem second_flush_hands_out_nans (settings : Settings Binary64)
    (hrun : (empty settings).run limit calls = .ok (s, answers))
    (hquestions : ∀ q ∈ questions, q.asks = true) :
    ∃ u first changes between second again,
      s.run limit (.flush :: (questions ++ [.flush])) =
        .ok (u, .updates first changes :: (between ++ [.updates second again])) ∧
      again = (s.unknowns.keys.filter (fun v => (s.value v).isNaN)).map
        (fun v => (v, s.value v)) ∧
      (second = .noUpdates ↔ ∀ v, s.hasVariable v = true → (s.value v).isNaN = false) := by
  obtain ⟨between, hboth⟩ := run_flush_twice s limit hquestions
  have hkeys : s.unknowns.keys.Nodup := (ledger_run settings limit calls _ hrun).counted.keys
  have hagain : s.flush.1.pending = (s.unknowns.keys.filter (fun v => (s.value v).isNaN)).map
      (fun v => (v, s.value v)) := by
    have hself : ∀ x : Binary64, (!Scalar.equals x x) = x.isNaN := fun x => by
      rw [show Scalar.equals x x = _ from Binary64.equals_self x, Bool.not_not]
    rw [pending_flush (fun x y h => by
        rw [show Scalar.equals y y = _ from Binary64.equals_self y,
          Binary64.isNaN_of_equals (x := x) h]
        rfl), entries_eq_values hkeys, List.filter_map]
    simp only [hself, Function.comp_def]
  refine ⟨_, _, _, between, _, _, hboth, hagain, ?_⟩
  rw [flushOutcome_eq_noUpdates_iff, hagain, List.map_eq_nil_iff, List.filter_eq_nil_iff]
  simp only [hasVariable, OrderedMap.contains_iff_mem_keys, Bool.not_eq_true]

/-- Three finite suggestions drive a width out of the numbers, and a flush hands it out
again and again, while a height that was handed out once is not. -/
theorem overflown_width_comes_out_again :
    ∃ (s : Solver Binary64) (answers : List (SolverAnswer Binary64)),
      (empty .standard).run 9 [
        .addEdit ⟨.entity ⟨0⟩, .height⟩ .strong,
        .addEdit ⟨.entity ⟨0⟩, .width⟩ .strong,
        .suggest ⟨.entity ⟨0⟩, .width⟩ (.ofDecimal 17 307),
        .suggest ⟨.entity ⟨0⟩, .width⟩ (.neg (.ofDecimal 17 307)),
        .suggest ⟨.entity ⟨0⟩, .width⟩ (.ofDecimal 17 307)] = .ok (s, answers) ∧
      s.unknowns.keys = [⟨.entity ⟨0⟩, .height⟩, ⟨.entity ⟨0⟩, .width⟩] ∧
      (s.value ⟨.entity ⟨0⟩, .height⟩).isNaN = false ∧
      (s.value ⟨.entity ⟨0⟩, .width⟩).isNaN = true ∧
      ∃ u first changes between second again,
        s.run 9 (.flush :: ([.hasVariable ⟨.entity ⟨0⟩, .width⟩] ++ [.flush])) =
          .ok (u, .updates first changes :: (between ++ [.updates second again])) ∧
        again = (s.unknowns.keys.filter (fun v => (s.value v).isNaN)).map
          (fun v => (v, s.value v)) ∧
        (second = .noUpdates ↔ ∀ v, s.hasVariable v = true → (s.value v).isNaN = false) := by
  have hchain : ((empty .standard : Solver Binary64).run 9 [
        .addEdit ⟨.entity ⟨0⟩, .height⟩ .strong,
        .addEdit ⟨.entity ⟨0⟩, .width⟩ .strong,
        .suggest ⟨.entity ⟨0⟩, .width⟩ (.ofDecimal 17 307),
        .suggest ⟨.entity ⟨0⟩, .width⟩ (.neg (.ofDecimal 17 307)),
        .suggest ⟨.entity ⟨0⟩, .width⟩ (.ofDecimal 17 307)]).toOption.any (fun p =>
          decide (p.1.unknowns.keys = [⟨.entity ⟨0⟩, .height⟩, ⟨.entity ⟨0⟩, .width⟩]) &&
          !(p.1.value ⟨.entity ⟨0⟩, .height⟩).isNaN &&
          (p.1.value ⟨.entity ⟨0⟩, .width⟩).isNaN) = true := by
    decide +kernel
  obtain ⟨⟨s, answers⟩, hrun, hrest⟩ := exists_ok_of_any hchain
  simp only [Bool.and_eq_true, decide_eq_true_eq, Bool.not_eq_true'] at hrest
  obtain ⟨⟨hkeys, hheight⟩, hwidth⟩ := hrest
  exact ⟨s, answers, hrun, hkeys, hheight, hwidth,
    second_flush_hands_out_nans .standard hrun (by simp [SolverCall.asks])⟩

/-- So flushing is not idempotent: a flush right after a flush may have updates. -/
theorem flush_is_not_idempotent :
    ∃ (s u : Solver Binary64) (answers : List (SolverAnswer Binary64))
      (changes again : List (Variable × Binary64)),
      (empty .standard).run 9 [
        .addEdit ⟨.entity ⟨0⟩, .width⟩ .strong,
        .suggest ⟨.entity ⟨0⟩, .width⟩ (.ofDecimal 17 307),
        .suggest ⟨.entity ⟨0⟩, .width⟩ (.neg (.ofDecimal 17 307)),
        .suggest ⟨.entity ⟨0⟩, .width⟩ (.ofDecimal 17 307)] = .ok (s, answers) ∧
      s.run 9 [.flush, .flush] = .ok (u, [.updates .updated changes, .updates .updated again]) ∧
      again.map (·.1) = [⟨.entity ⟨0⟩, .width⟩] := by
  have hchain : ((empty .standard : Solver Binary64).run 9 [
        .addEdit ⟨.entity ⟨0⟩, .width⟩ .strong,
        .suggest ⟨.entity ⟨0⟩, .width⟩ (.ofDecimal 17 307),
        .suggest ⟨.entity ⟨0⟩, .width⟩ (.neg (.ofDecimal 17 307)),
        .suggest ⟨.entity ⟨0⟩, .width⟩ (.ofDecimal 17 307)]).toOption.any (fun p =>
          decide (flushOutcome p.1.pending = .updated) &&
          decide (flushOutcome p.1.flush.1.pending = .updated) &&
          decide (p.1.flush.1.pending.map (·.1) = [⟨.entity ⟨0⟩, .width⟩])) = true := by
    decide +kernel
  obtain ⟨⟨s, answers⟩, hrun, hrest⟩ := exists_ok_of_any hchain
  simp only [Bool.and_eq_true, decide_eq_true_eq] at hrest
  obtain ⟨⟨hfirst, hsecond⟩, hagain⟩ := hrest
  refine ⟨s, s.flush.1.flush.1, answers, s.pending, s.flush.1.pending, hrun, ?_, hagain⟩
  show Except.ok (s.flush.1.flush.1, [SolverAnswer.updates (flushOutcome s.pending) s.pending,
    .updates (flushOutcome s.flush.1.pending) s.flush.1.pending]) = _
  rw [hfirst, hsecond]

end Numbers

end Solver
end Tether
