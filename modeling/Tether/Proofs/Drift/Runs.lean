import Tether.Proofs.Drift.Leftovers
import Tether.Proofs.Solver.Presence

/-!
# How far required equalities drift

A required equality is not zero exactly, and not less than a fixed number either: a cell that
is near zero is dropped whatever it is multiplied with later.  What bounds the drift of an
equality is how large the values are, how large they may have been before, and how many
eliminations the calls may have made.  Suggestions add up to the former: values were no
larger than they are by more than the way that suggestions have gone.  A removal may have
given up a symbol whose value nothing tells any more but the row that it had.
-/

namespace Tether

open Simplex

section Counting

namespace SolverCall

/-- How many eliminations a call may make. -/
def eliminations (limit : Nat) : SolverCall Coarse → Nat
  | .add _ => 2 * limit + 3
  | .addAll cs => cs.length * (2 * limit + 3)
  | .remove _ => limit + 1
  | .removeAll cs => cs.length * (limit + 1)
  | .addEdit _ _ => 2 * limit + 3
  | .removeEdit _ => limit + 1
  | .suggest _ _ => limit
  | _ => 0

/-- Whether a call removes no required equality. -/
def KeepsEqualities : SolverCall Coarse → Prop
  | .remove c => c.markerKind ≠ .dummy
  | .removeAll cs => ∀ c ∈ cs, c.markerKind ≠ .dummy
  | _ => True

/-- Whether a call removes no constraint. -/
def KeepsConstraints : SolverCall Coarse → Prop
  | .remove _ | .removeAll _ | .removeEdit _ => False
  | _ => True

end SolverCall

end Counting

namespace Solver

variable {s u w : Solver Coarse} {k : Nat} {F : Reach} {M : Rat}

section Reaching

/-- How large values may have been before constraints are removed up to the first failure. -/
def removalsReach (limit : Nat) : Solver Coarse → List (Constraint Coarse) → Reach
  | _, [] => Reach.id
  | s, c :: rest =>
      (s.removalReach c).comp
        (match s.remove limit c with
        | .ok (s', .ok ()) => removalsReach limit s' rest
        | _ => Reach.id)

/-- How large values may have been before a call. -/
def callReach (limit : Nat) (s : Solver Coarse) : SolverCall Coarse → Reach
  | .remove c => s.removalReach c
  | .removeAll cs => s.removalsReach limit cs
  | .removeEdit v => s.endingReach v
  | .suggest v a => Reach.ofMove (s.suggestedMove v a)
  | _ => Reach.id

/-- How large values may have been in a run. -/
def reach (limit : Nat) : Solver Coarse → List (SolverCall Coarse) → Reach
  | _, [] => Reach.id
  | s, call :: rest =>
      (s.callReach limit call).comp
        ((s.perform limit call).toOption.elim Reach.id (fun p => reach limit p.1 rest))

/-- The way that a suggestion goes. -/
def callTravel (s : Solver Coarse) : SolverCall Coarse → Rat
  | .suggest v a => |s.suggestedMove v a|
  | _ => 0

/-- The way that suggestions go in a run. -/
def travel (limit : Nat) : Solver Coarse → List (SolverCall Coarse) → Rat
  | _, [] => 0
  | s, call :: rest =>
      s.callTravel call + (s.perform limit call).toOption.elim 0 (fun p => travel limit p.1 rest)

theorem bound_callReach (limit : Nat) (s : Solver Coarse) {call : SolverCall Coarse}
    (h : call.KeepsConstraints) (M : Rat) :
    (s.callReach limit call).bound M = M + s.callTravel call := by
  cases call <;> first
    | exact (add_zero M).symm
    | rfl
    | exact h.elim

/-- While nothing is removed, values may have been larger by the way that suggestions go. -/
theorem bound_reach (limit : Nat) {calls : List (SolverCall Coarse)}
    (h : ∀ call ∈ calls, call.KeepsConstraints) (s : Solver Coarse) (M : Rat) :
    (s.reach limit calls).bound M = M + s.travel limit calls := by
  induction calls generalizing s with
  | nil => exact (add_zero M).symm
  | cons call rest ih =>
      obtain ⟨hcall, hrest⟩ := List.forall_mem_cons.mp h
      have hlater : ((s.perform limit call).toOption.elim Reach.id
          (fun p => p.1.reach limit rest)).bound M =
            M + (s.perform limit call).toOption.elim 0 (fun p => p.1.travel limit rest) := by
        cases (s.perform limit call).toOption with
        | none => exact (add_zero M).symm
        | some p => exact ih hrest p.1
      rw [reach, travel, Reach.bound_comp, hlater, s.bound_callReach limit hcall]
      ring

end Reaching

section Calls

/-- Additions one by one make equalities drift by what each of them does. -/
theorem Drifts.addAll (h : Drifts k F s s.constraints.entries) (hl : s.Ledger) (limit : Nat)
    (cs : List (Constraint Coarse)) : Ensures (s.addAll limit cs) (fun p =>
      Drifts (k + cs.length * (2 * limit + 3)) F p.1 p.1.constraints.entries) := by
  unfold Solver.addAll
  induction cs generalizing s k with
  | nil => exact ensures_ok (h.mono (Nat.le_add_right k _) (le_refl F) (fun _ he => he))
  | cons c rest ih =>
      unfold forEach
      refine Ensures.bind (((h.add hl limit c).and (hl.add limit c)).mono ?_)
      rintro ⟨s', answer⟩ ⟨hdrifts, hadded⟩
      have hlength : (c :: rest).length * (2 * limit + 3) =
          2 * limit + 3 + rest.length * (2 * limit + 3) := by
        rw [List.length_cons, Nat.add_one_mul, Nat.add_comm]
      rw [hlength, ← Nat.add_assoc]
      cases answer with
      | error e =>
          exact ensures_ok (hdrifts.mono (Nat.le_add_right _ _) (le_refl F) (fun _ he => he))
      | ok _ => exact ih hdrifts hadded.1

/-- Removals one by one make equalities drift by what each of them does. -/
theorem Drifts.removeAll (h : Drifts k F s s.constraints.entries) (hl : s.Ledger) (limit : Nat)
    (cs : List (Constraint Coarse)) : Ensures (s.removeAll limit cs) (fun p =>
      Drifts (k + cs.length * (limit + 1)) (F.comp (s.removalsReach limit cs)) p.1
        p.1.constraints.entries) := by
  unfold Solver.removeAll
  induction cs generalizing s k F with
  | nil => exact ensures_ok (h.mono (Nat.le_add_right k _) (F.le_comp _) (fun _ he => he))
  | cons c rest ih =>
      unfold forEach
      refine Ensures.bind (fun p hp => ?_)
      have hdrifts := h.remove hl limit c p hp
      have hremoved := hl.remove limit c p hp
      obtain ⟨s', answer⟩ := p
      have hlength : (c :: rest).length * (limit + 1) =
          limit + 1 + rest.length * (limit + 1) := by
        rw [List.length_cons, Nat.add_one_mul, Nat.add_comm]
      rw [hlength, ← Nat.add_assoc, removalsReach, hp, ← Reach.comp_assoc]
      cases answer with
      | error e =>
          exact ensures_ok (hdrifts.mono (Nat.le_add_right _ _) (Reach.le_comp _ _)
            (fun _ he => he))
      | ok _ => exact ih hdrifts hremoved.1

theorem Drifts.flush (h : Drifts k F s s.constraints.entries) :
    Drifts k F s.flush.1 s.constraints.entries := by
  refine h.congr (fun _ hσ => hσ) (Nat.le_refl _) (fun e _ _ t _ => ?_)
  have hunknowns : s.flush.1.unknowns = s.unknowns.mapValues (fun _ entry =>
      if s.isStale entry then { entry with reported := some (s.symbolValue entry.symbol) }
      else entry) := rfl
  rw [symbol?, symbol?, hunknowns, OrderedMap.get?_mapValues, Option.map_map]
  refine congrArg (fun f => (s.unknowns.get? t.unknown).map f) (funext (fun entry => ?_))
  dsimp only [Function.comp_apply]
  split <;> rfl

theorem drifts_empty (settings : Settings Coarse) :
    Drifts 0 Reach.id (empty settings) (empty settings).constraints.entries :=
  ⟨fun _ _ _ _ _ _ _ _ he => (by cases he)⟩

/-- A call makes equalities drift by the eliminations that it may make, at values that may
have been as large as it reaches. -/
theorem Drifts.perform (h : Drifts k F s s.constraints.entries) (hl : s.Ledger) (limit : Nat)
    (call : SolverCall Coarse) : Ensures (s.perform limit call) (fun p =>
      Drifts (k + call.eliminations limit) (F.comp (s.callReach limit call)) p.1
        p.1.constraints.entries) := by
  cases call with
  | add c => exact Ensures.map (h.add hl limit c)
  | addAll cs => exact Ensures.map (h.addAll hl limit cs)
  | remove c => exact Ensures.map (h.remove hl limit c)
  | removeAll cs => exact Ensures.map (h.removeAll hl limit cs)
  | hasConstraint c => exact ensures_ok h
  | addEdit v strength => exact Ensures.map (h.addEdit hl limit v strength)
  | removeEdit v => exact Ensures.map (h.removeEdit hl limit v)
  | hasEditVariable v => exact ensures_ok h
  | hasVariable v => exact ensures_ok h
  | suggest v a => exact Ensures.map (h.suggest hl limit v a)
  | value v => exact ensures_ok h
  | flush => exact ensures_ok h.flush
  | constraints => exact ensures_ok h
  | settings => exact ensures_ok h
  | reset =>
      exact ensures_ok ((drifts_empty s.settings).mono (Nat.zero_le _) F.id_le (fun _ he => he))

/-- How many eliminations calls may make. -/
def eliminations (limit : Nat) (calls : List (SolverCall Coarse)) : Nat :=
  (calls.map (SolverCall.eliminations limit)).sum

/-- A run makes equalities drift by the eliminations that its calls may make, at values that
may have been as large as they reach. -/
theorem Drifts.run (h : Drifts k F s s.constraints.entries) (hl : s.Ledger) (limit : Nat)
    (calls : List (SolverCall Coarse)) : Ensures (s.run limit calls) (fun p =>
      Drifts (k + eliminations limit calls) (F.comp (s.reach limit calls)) p.1
        p.1.constraints.entries) := by
  induction calls generalizing s k F with
  | nil => exact ensures_ok h
  | cons call rest ih =>
      refine Ensures.bind (fun p hp => Ensures.map ?_)
      have hreach : s.reach limit (call :: rest) =
          (s.callReach limit call).comp (p.1.reach limit rest) := by
        rw [reach, hp]
        rfl
      have hcount : eliminations limit (call :: rest) =
          call.eliminations limit + eliminations limit rest := List.sum_cons
      rw [hreach, hcount, ← Reach.comp_assoc, ← Nat.add_assoc]
      exact ih (h.perform hl limit call p hp) (hl.perform limit call p hp)

end Calls

section Leftovers

theorem slight_empty (settings : Settings Coarse) : (empty settings).Slight :=
  fun _ hb => (by cases hb)

/-- A call that removes no required equality leaves what was left over. -/
theorem Slight.perform (h : s.Slight) (hl : s.Ledger) (limit : Nat) {call : SolverCall Coarse}
    (hcall : call.KeepsEqualities) : Ensures (s.perform limit call) (fun p => p.1.Slight) := by
  cases call with
  | add c => exact Ensures.map (h.add hl limit c)
  | addAll cs =>
      exact Ensures.map ((ensures_forEach (I := fun u => u.Ledger ∧ u.Slight)
        (Q := fun p => p.1.Slight)
        (fun u hu c _ => ((hu.1.add limit c).and (hu.2.add hu.1 limit c)).mono
          (fun _ hp => ⟨fun _ => ⟨hp.1.1, hp.2⟩, fun _ _ => hp.2⟩))
        (fun _ hu => hu.2) ⟨hl, h⟩).mono (fun _ hp => hp))
  | remove c => exact Ensures.map (h.remove hl limit hcall)
  | removeAll cs =>
      exact Ensures.map ((ensures_forEach (I := fun u => u.Ledger ∧ u.Slight)
        (Q := fun p => p.1.Slight)
        (fun u hu c hc => ((hu.1.remove limit c).and (hu.2.remove hu.1 limit (hcall c hc))).mono
          (fun _ hp => ⟨fun _ => ⟨hp.1.1, hp.2⟩, fun _ _ => hp.2⟩))
        (fun _ hu => hu.2) ⟨hl, h⟩).mono (fun _ hp => hp))
  | hasConstraint c => exact ensures_ok h
  | addEdit v strength =>
      exact Ensures.map (ensures_addEdit (fun _ => h) (fun _ => h)
        (fun _ _ => (h.add hl limit _).mono
          (fun _ hp => ⟨fun _ _ _ => hp, fun _ _ _ => hp, fun _ _ => hp⟩)))
  | removeEdit v =>
      refine Ensures.map (ensures_removeEdit (fun _ => h) (fun edit hv => ?_))
      refine Slight.remove (s := { s with edits := s.edits.erase v }) h
        (hl.withEdits (hl.held.erase v)) limit ?_
      rw [(hl.preference_of_edit hv).2]
      decide
  | hasEditVariable v => exact ensures_ok h
  | hasVariable v => exact ensures_ok h
  | suggest v a => exact Ensures.map (h.suggest hl limit v a)
  | value v => exact ensures_ok h
  | flush => exact ensures_ok h
  | constraints => exact ensures_ok h
  | settings => exact ensures_ok h
  | reset => exact ensures_ok (slight_empty s.settings)

end Leftovers

section Values

/-- The largest value of a symbol, or one. -/
def magnitude (s : Solver Coarse) : Rat :=
  (s.tableau.basics.map (fun b => |b.2.constant.value|)).foldr max 1

end Values

section Drift

variable {calls : List (SolverCall Coarse)} {answers : List (SolverAnswer Coarse)}
  {c : Constraint Coarse} {tag : Tag}

/-- How far a required equality may have drifted in a run: in proportion to the largest value
that there may have been, with interest of the tolerance for every symbol in every elimination
that the calls may have made. -/
def drift (settings : Settings Coarse) (limit : Nat) (calls : List (SolverCall Coarse))
    (s : Solver Coarse) (c : Constraint Coarse) : Rat :=
  c.expression.size * ((growth s.tableau.symbolCount ^ eliminations limit calls - 1) *
    ((empty settings).reach limit calls).bound s.magnitude)

/-- In a run that removes nothing, an equality drifts in proportion to the largest value and
the way that suggestions have gone. -/
theorem drift_of_keepsConstraints (settings : Settings Coarse) (limit : Nat)
    (h : ∀ call ∈ calls, call.KeepsConstraints) (s : Solver Coarse) (c : Constraint Coarse) :
    drift settings limit calls s c =
      c.expression.size * ((growth s.tableau.symbolCount ^ eliminations limit calls - 1) *
        (s.magnitude + (empty settings).travel limit calls)) := by
  rw [drift, bound_reach limit h]

end Drift

end Solver
end Tether
