import Tether.Proofs.Exact.Probing
import Tether.Proofs.Solver.Undertaking

/-!
# Loops that get stuck

A loop that comes to a state where it gets stuck makes its call break down,
unless the limit ends the loop before.  So if a call does not break down under
any limit, then each step of its loops finds what it looks for.
-/

namespace Tether

open Simplex

namespace Solver

section Breaking

variable {s t u start : Solver Rat} {c : Constraint Rat} {loop : Loop} {call : SolverCall Rat}
  {limit limit' : Nat} {why : Breakdown}

theorem reoptimize_of_breakdown {ε : Type} {internal : String → ε}
    (h : iterate (primalStep .primary) limit s = .ok (u, .error why)) :
    reoptimize limit internal s = .ok (u, .error (internal why.message)) := by
  unfold reoptimize optimize
  rw [h]
  rfl

theorem probe_of_breakdown {r : Row Rat}
    (h : iterate (primalStep .artificial) limit (host s r) = .ok (u, .error why)) :
    probe limit s r = .ok (u, .error why) := by
  have hprobe : (host s r).optimize .artificial limit = .ok (u, .error why) := h
  unfold host at hprobe
  unfold probe
  dsimp only
  rw [hprobe]
  rfl

theorem probe_mono (h : limit ≤ limit') {r : Row Rat} {p : Solver Rat × Except Breakdown Bool}
    (hp : probe limit s r = .ok p) : probe limit' s r = .ok p := by
  cases hi : iterate (primalStep .artificial) limit (host s r) with
  | error halt =>
      unfold probe optimize at hp
      unfold host at hi
      dsimp only at hp
      rw [hi] at hp
      cases hp
  | ok q =>
      have hi' := iterate_mono _ h _ hi
      unfold probe optimize at hp ⊢
      unfold host at hi hi'
      dsimp only at hp ⊢
      rwa [hi', ← hi]

/-- An addition with a loop that breaks down breaks down, if the limit is large enough. -/
theorem Adding.breaks_down (hp : c.hasProxies = false) (hc : s.hasConstraint c = false)
    (h : s.Adding c loop start) (hl : iterate loop.step limit start = .ok (u, .error why)) :
    ∃ limit' w text, s.add limit' c = .ok (w, .error (.internal text)) := by
  cases h with
  | subject hx =>
      exact ⟨limit, u, why.message,
        (add_of_subject hp hc hx).trans (reoptimize_of_breakdown hl)⟩
  | redundant hx hd hz =>
      exact ⟨limit, u, why.message,
        (add_of_redundant hp hc hx hd hz).trans (reoptimize_of_breakdown hl)⟩
  | probing hx hd =>
      refine ⟨limit, u.keepProbe, why.message, (add_of_probing hp hc hx hd).trans ?_⟩
      unfold installByProbe
      dsimp only
      rw [probe_of_breakdown hl]
      rfl
  | @probed hx hd limit' v hv =>
      have hv' := probe_mono (Nat.le_max_right limit limit') hv
      have hl' := iterate_mono _ (Nat.le_max_left limit limit') _ hl
      refine ⟨max limit limit', u, why.message, (add_of_probing hp hc hx hd).trans ?_⟩
      unfold installByProbe
      dsimp only
      rw [hv']
      exact reoptimize_of_breakdown hl'

theorem remove_of_breakdown {e : Constraint Rat × Tag} (hf : s.constraints.find? c = some e)
    (hl : iterate (primalStep .primary) limit
      (uninstall { s with constraints := s.constraints.erase c } e.1 e.2) =
        .ok (u, .error why)) :
    s.remove limit c = .ok (u, .error (.internal why.message)) := by
  unfold Solver.remove
  rw [hf]
  exact reoptimize_of_breakdown hl

theorem addEdit_of_breakdown {v : Variable} {strength : Strength Rat} {text : String}
    (hv : s.hasEditVariable v = false) (hr : (Strength.clip strength.value).isRequired = false)
    (h : s.add limit (holding v (s.value v) (.clip strength.value)) =
      .ok (u, .error (.internal text))) :
    s.addEdit limit v strength = .ok (u, .error (.internal text)) := by
  unfold Solver.addEdit
  dsimp only
  rw [hv, hr, h]
  rfl

theorem removeEdit_of_breakdown {v : Variable} {edit : Edit Rat} {text : String}
    (hv : s.edits.get? v = some edit)
    (h : remove limit { s with edits := s.edits.erase v } edit.constraint =
      .ok (u, .error (.internal text))) :
    s.removeEdit limit v = .ok (u, .error (.internal text)) := by
  unfold Solver.removeEdit
  rw [hv]
  dsimp only
  rw [h]
  rfl

theorem suggest_of_breakdown {v : Variable} {x : Rat} {edit : Edit Rat}
    (hv : s.edits.get? v = some edit) (hx : Scalar.isZero (x - edit.constant) = false)
    (h : iterate dualStep limit (shiftEdit { s with
      edits := s.edits.modify v (fun edit => { edit with constant := x }) } edit.tag
        (x - edit.constant)) = .ok (u, .error why)) :
    s.suggest limit v x = .ok (u, .error (.internal why.message)) := by
  unfold Solver.suggest dualOptimize
  rw [hv]
  dsimp only
  rw [hx, if_neg Bool.false_ne_true, h]
  rfl

/-- A call with a loop that breaks down breaks down, if the limit is large enough. -/
theorem Starts.breaks_down (h : Starts s call loop start)
    (hl : iterate loop.step limit start = .ok (u, .error why)) :
    ∃ limit' w answer, s.perform limit' call = .ok (w, answer) ∧ answer.isInternal = true := by
  cases h with
  | add hp hc h =>
      obtain ⟨limit', w, text, hadd⟩ := h.breaks_down hp hc hl
      exact ⟨limit', w, _, congrArg (answer .addConstraint) hadd, rfl⟩
  | remove hf =>
      exact ⟨limit, u, _, congrArg (answer .removeConstraint) (remove_of_breakdown hf hl), rfl⟩
  | addEdit hv hr h =>
      cases h with
      | add hp hc h =>
          obtain ⟨limit', w, text, hadd⟩ := h.breaks_down hp hc hl
          exact ⟨limit', w, _,
            congrArg (answer .editVariable) (addEdit_of_breakdown hv hr hadd), rfl⟩
  | removeEdit hv h =>
      cases h with
      | remove hf =>
          have hremove := remove_of_breakdown (s := { s with edits := s.edits.erase _ }) hf hl
          exact ⟨limit, u, _,
            congrArg (answer .editVariable) (removeEdit_of_breakdown hv hremove), rfl⟩
  | suggest hv hx =>
      exact ⟨limit, u, _,
        congrArg (answer .suggestValue) (suggest_of_breakdown hv hx hl), rfl⟩

/-- The loops of a call that breaks down under no limit never get stuck. -/
theorem Starts.never_stuck (h : Starts s call loop start)
    (hcalm : ∀ limit w answer, s.perform limit call = .ok (w, answer) → answer.isInternal = false)
    (ht : Visits loop.step start t) : loop.step t ≠ .stuck u why := by
  intro hstuck
  obtain ⟨limit, u', why', hl⟩ := exists_visits_stuck_iff.mp ⟨t, ht, u, why, hstuck⟩
  obtain ⟨limit', w, answer, hperform, hinternal⟩ := h.breaks_down hl
  rw [hcalm _ _ _ hperform] at hinternal
  cases hinternal

end Breaking

section Finding

variable {t : Solver Rat} {goal : Goal} {leaving : Symbol}

/-- A primal step that is not stuck finds a restricted row for the symbol that
enters. -/
theorem exists_leaving_of_ne_stuck (h : ∀ u why, primalStep goal t ≠ .stuck u why) :
    ∃ objective, t.goalRow? goal = some objective ∧
      ∀ entering, entering? objective = some entering →
        ∃ leaving r, withRow t.tableau (leaving? t.tableau entering) = some (leaving, r) ∧
          leaving.isPivotable = true := by
  unfold primalStep at h
  cases hobj : t.goalRow? goal with
  | none =>
      simp only [hobj] at h
      exact absurd rfl (h _ _)
  | some objective =>
      refine ⟨objective, rfl, fun entering hent => ?_⟩
      simp only [hobj, hent] at h
      cases hrow : withRow t.tableau (leaving? t.tableau entering) with
      | none =>
          simp only [hrow] at h
          exact absurd rfl (h _ _)
      | some b =>
          exact ⟨b.1, b.2, rfl, (knows_of_leaving? (withRow_eq_some_iff.mp hrow).1).2⟩

/-- A dual step that is not stuck finds a symbol to enter for the row that leaves. -/
theorem exists_entering_of_ne_stuck (h : ∀ u why, dualStep t ≠ .stuck u why)
    (hl : t.mostInfeasible? = some leaving) :
    ∃ r entering, t.tableau.row? leaving = some r ∧ t.dualEntering? r = some entering := by
  unfold dualStep at h
  simp only [hl] at h
  cases hrow : t.tableau.row? leaving with
  | none =>
      simp only [hrow] at h
      exact absurd rfl (h _ _)
  | some r =>
      simp only [hrow] at h
      cases hent : dualEntering? { t with
          infeasible := t.stillInfeasible.filter (· ≠ leaving) } r with
      | none =>
          simp only [hent] at h
          exact absurd rfl (h _ _)
      | some entering => exact ⟨r, entering, rfl, hent⟩

end Finding

end Solver

end Tether
