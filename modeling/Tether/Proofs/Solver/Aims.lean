import Mathlib.Logic.Function.Basic
import Tether.Proofs.Solver.Stability

/-!
# Where edit variables are held

An edit variable is held at the value that was last suggested for it, or at the
value that it had when it became an edit variable, if none has been suggested
since.  The aims of a run record this from the calls alone, and the constants of
the edits agree with them.  Variables that are not edit variables may have any
aim.
-/

namespace Tether
namespace Solver

open Simplex

variable {α : Type} {s u : Solver α} {aims : Variable → α}

section Aimed

/-- Every edit variable is held where it aims. -/
def Aimed (s : Solver α) (aims : Variable → α) : Prop :=
  ∀ e ∈ s.edits.entries, e.2.constant = aims e.1

theorem Aimed.mono (h : s.Aimed aims) (hu : ∀ e ∈ u.edits.entries, e ∈ s.edits.entries) :
    u.Aimed aims :=
  fun e he => h e (hu e he)

/-- The aim of a variable that is not an edit variable does not matter. -/
theorem Aimed.update (h : s.Aimed aims) {v : Variable} (hv : s.edits.contains v = false)
    (x : α) : s.Aimed (Function.update aims v x) := by
  intro e he
  rw [h e he, Function.update_of_ne]
  rintro rfl
  rw [OrderedMap.contains_iff_mem_keys.mpr (OrderedMap.mem_keys_of_mem he)] at hv
  cases hv

end Aimed

variable [Scalar α]

section Aims

/-- The aims after a call.  A new edit variable aims at its value; what is
suggested is an aim. -/
def aim (s : Solver α) (aims : Variable → α) : SolverCall α → Variable → α
  | .addEdit v _ => if s.hasEditVariable v then aims else Function.update aims v (s.value v)
  | .suggest v x => Function.update aims v x
  | _ => aims

/-- The aims after a run. -/
def aimsAfter (limit : Nat) (s : Solver α) (aims : Variable → α) :
    List (SolverCall α) → Variable → α
  | [] => aims
  | call :: rest =>
      match s.perform limit call with
      | .ok p => aimsAfter limit p.1 (s.aim aims call) rest
      | .error _ => aims

end Aims

section Calls

theorem Aimed.add (h : s.Aimed aims) (hl : s.Ledger) (limit : Nat) (c : Constraint α) :
    Ensures (s.add limit c) (fun p => p.1.Aimed aims) := by
  refine (hl.add limit c).mono (fun p hp => h.mono (fun e he => ?_))
  rwa [hp.2.2.1] at he

theorem Aimed.remove (h : s.Aimed aims) (hl : s.Ledger) (limit : Nat) (c : Constraint α) :
    Ensures (s.remove limit c) (fun p => p.1.Aimed aims) :=
  (hl.remove limit c).mono (fun _ hp => h.mono (fun _ he => hp.2.2.subset he))

theorem Aimed.addAll (h : s.Aimed aims) (hl : s.Ledger) (limit : Nat)
    (cs : List (Constraint α)) :
    Ensures (s.addAll limit cs) (fun p => p.1.Aimed aims) :=
  hl.addAll_maintains (I := fun s => s.Aimed aims) h (fun hl hs c _ => Aimed.add hs hl limit c)

theorem Aimed.removeAll (h : s.Aimed aims) (hl : s.Ledger) (limit : Nat)
    (cs : List (Constraint α)) :
    Ensures (s.removeAll limit cs) (fun p => p.1.Aimed aims) :=
  hl.removeAll_maintains (I := fun s => s.Aimed aims) h
    (fun hl hs c _ => Aimed.remove hs hl limit c)

theorem Aimed.addEdit (h : s.Aimed aims) (hl : s.Ledger) (limit : Nat) (v : Variable)
    (strength : Strength α) : Ensures (s.addEdit limit v strength)
      (fun p => p.1.Aimed (s.aim aims (.addEdit v strength))) := by
  have hnew : s.hasEditVariable v = false →
      s.aim aims (.addEdit v strength) = Function.update aims v (s.value v) :=
    fun hv => if_neg (by simp [hv])
  refine ensures_addEdit (fun hv => ?_) (fun hv => ?_) (fun hv _ => (hl.add limit _).mono ?_)
  · rwa [show s.aim aims (.addEdit v strength) = aims from if_pos hv]
  · rw [hnew hv]
    exact h.update hv _
  · rintro p ⟨-, -, hedits, -⟩
    rw [hnew hv]
    have hp : p.1.Aimed (Function.update aims v (s.value v)) :=
      (h.update hv _).mono (fun e he => hedits ▸ he)
    refine ⟨fun tag _ _ e he => ?_, fun _ _ _ => hp, fun _ _ => hp⟩
    rw [OrderedMap.entries_insert_of_not_contains (by rwa [hedits])] at he
    rcases List.mem_append.mp he with he | he
    · exact hp e he
    · rw [List.mem_singleton.mp he]
      exact (Function.update_self v (s.value v) aims).symm

theorem Aimed.removeEdit (h : s.Aimed aims) (hl : s.Ledger) (limit : Nat) (v : Variable) :
    Ensures (s.removeEdit limit v) (fun p => p.1.Aimed aims) := by
  have ha : Aimed { s with edits := s.edits.erase v } aims :=
    h.mono (fun _ he => OrderedMap.mem_of_mem_erase he)
  refine ensures_removeEdit (fun _ => h) (fun edit _ => ?_)
  exact ha.remove (hl.withEdits (hl.held.erase v)) limit _

theorem Aimed.suggest (h : s.Aimed aims) (hl : s.Ledger) (limit : Nat) (v : Variable) (x : α) :
    Ensures (s.suggest limit v x) (fun p => p.1.Aimed (s.aim aims (.suggest v x))) := by
  have hs : Aimed { s with
      edits := s.edits.modify v (fun edit => { edit with constant := x }) }
        (Function.update aims v x) := by
    intro e he
    dsimp only at he
    rw [OrderedMap.entries_modify hl.held.keys] at he
    obtain ⟨d, hd, rfl⟩ := List.mem_map.mp he
    by_cases hdv : d.1 = v
    · simp [hdv]
    · simpa [hdv] using h d hd
  refine ensures_suggest (fun hv => h.update (OrderedMap.get?_eq_none_iff.mp hv) x)
    (fun _ _ _ => hs) (fun edit _ => (ensures_dualOptimize_books _ limit).mono (fun p hp => ?_))
  have hedits : p.1.edits = s.edits.modify v (fun edit => { edit with constant := x }) :=
    congrArg (fun b => b.2.2.2) (hp.trans (books_shiftEdit _ _ _))
  exact hs.mono (fun e he => by rwa [hedits] at he)

/-- Every call leads to its aims, whatever it answers. -/
theorem Aimed.perform (h : s.Aimed aims) (hl : s.Ledger) (limit : Nat) (call : SolverCall α) :
    Ensures (s.perform limit call) (fun p => p.1.Aimed (s.aim aims call)) := by
  cases call with
  | add c => exact Ensures.map ((h.add hl limit c).mono (fun _ hp => hp))
  | addAll cs => exact Ensures.map ((h.addAll hl limit cs).mono (fun _ hp => hp))
  | remove c => exact Ensures.map ((h.remove hl limit c).mono (fun _ hp => hp))
  | removeAll cs => exact Ensures.map ((h.removeAll hl limit cs).mono (fun _ hp => hp))
  | hasConstraint c => exact ensures_ok h
  | addEdit v strength =>
      exact Ensures.map ((h.addEdit hl limit v strength).mono (fun _ hp => hp))
  | removeEdit v => exact Ensures.map ((h.removeEdit hl limit v).mono (fun _ hp => hp))
  | hasEditVariable v => exact ensures_ok h
  | hasVariable v => exact ensures_ok h
  | suggest v x => exact Ensures.map ((h.suggest hl limit v x).mono (fun _ hp => hp))
  | value v => exact ensures_ok h
  | flush => exact ensures_ok h
  | constraints => exact ensures_ok h
  | settings => exact ensures_ok h
  | reset => exact ensures_ok (fun e he => by cases he)

/-- Every run leads to its aims. -/
theorem Aimed.run (h : s.Aimed aims) (hl : s.Ledger) (limit : Nat)
    (calls : List (SolverCall α)) :
    Ensures (s.run limit calls) (fun p => p.1.Aimed (s.aimsAfter limit aims calls)) := by
  induction calls generalizing s aims with
  | nil => exact ensures_ok h
  | cons call rest ih =>
      refine Ensures.bind (fun p hp => Ensures.map ?_)
      have hs := h.perform hl limit call p hp
      have haims : s.aimsAfter limit aims (call :: rest) =
          p.1.aimsAfter limit (s.aim aims call) rest := by
        rw [aimsAfter, hp]
      rw [haims]
      exact ih hs (hl.perform limit call p hp)

theorem aimed_empty (settings : Settings α) (aims : Variable → α) :
    (empty settings).Aimed aims := by
  intro e he
  cases he

end Calls

end Solver
end Tether
