import Tether.Proofs.Outcome
import Tether.Solver.Editing

/-!
# How calls go

For every call there is one rule: something holds of what the call answers if it
holds in each of the ways in which the call may go.  What is proved about calls
is proved by these rules, so the code of a call is looked at here and nowhere
else.
-/

namespace Tether
namespace Solver

open Simplex

variable {α : Type} [Scalar α] {s : Solver α} {c : Constraint α} {limit : Nat}

section Adding

variable {Q : Solver α × Except AddError Unit → Prop}

theorem ensures_reoptimize {ε : Type} {internal : String → ε}
    {Q : Solver α × Except ε Unit → Prop}
    (h : Ensures (s.optimize .primary limit) (fun p =>
      (p.2 = .ok () → Q ({ p.1 with infeasible := [] }, .ok ())) ∧
        ∀ why, p.2 = .error why → Q (p.1, .error (internal why.message)))) :
    Ensures (reoptimize limit internal s) Q := by
  refine Ensures.map (h.mono ?_)
  rintro ⟨s', answer⟩ ⟨hok, herr⟩
  cases answer with
  | error why => exact herr why rfl
  | ok u => exact hok rfl

theorem ensures_installByProbe {r : Row α} {tag : Tag} {known : Nat}
    (h : Ensures (probe limit { s with tableau := s.tableau.openJournal } r) (fun p =>
      (p.2 = .ok true → Ensures (install limit p.1.keepProbe c tag) Q) ∧
        (p.2 = .ok false →
          Q (p.1.undoProbe s.objective known, .error .unsatisfiableConstraint)) ∧
        ∀ why, p.2 = .error why → Q (p.1.keepProbe, .error (.internal why.message)))) :
    Ensures (installByProbe limit s known c r tag) Q := by
  refine Ensures.bind (h.mono ?_)
  rintro ⟨s', answer⟩ ⟨htrue, hfalse, herr⟩
  cases answer with
  | error why => exact ensures_ok (herr why rfl)
  | ok success =>
      cases success with
      | true => exact htrue rfl
      | false => exact ensures_ok (hfalse rfl)

/-- An addition finds a duplicate, a subject, a row to probe, a redundant row of
dummies or a contradictory one. -/
theorem ensures_add
    (duplicate : s.hasConstraint c = true → Q (s, .error .duplicateConstraint))
    (subject : s.hasConstraint c = false → ∀ x,
      subject? (s.createRow c).1 (s.createRow c).2.1 = some x →
        Ensures (install limit ((s.createRow c).2.2.enter x ((s.createRow c).1.solveFor x)) c
          (s.createRow c).2.1) Q)
    (probing : s.hasConstraint c = false →
      subject? (s.createRow c).1 (s.createRow c).2.1 = none →
        (s.createRow c).1.allDummies = false →
          Ensures (installByProbe limit (s.createRow c).2.2 s.unknowns.size c
            (s.createRow c).1 (s.createRow c).2.1) Q)
    (redundant : s.hasConstraint c = false → (s.createRow c).1.allDummies = true →
      Scalar.nearZero (s.createRow c).1.constant = true →
        Ensures (install limit ((s.createRow c).2.2.enter (s.createRow c).2.1.marker
          ((s.createRow c).1.solveFor (s.createRow c).2.1.marker)) c (s.createRow c).2.1) Q)
    (contradictory : s.hasConstraint c = false →
      subject? (s.createRow c).1 (s.createRow c).2.1 = none →
        (s.createRow c).1.allDummies = true →
          Scalar.nearZero (s.createRow c).1.constant = false →
            Q ((s.createRow c).2.2.forgetAfter s.unknowns.size,
              .error .unsatisfiableConstraint)) :
    Ensures (s.add limit c) Q := by
  unfold Solver.add
  split
  · exact ensures_error _
  · split
    · rename_i hc
      exact ensures_ok (duplicate hc)
    · rename_i hc
      have hc : s.hasConstraint c = false := by simpa using hc
      dsimp only
      split
      · rename_i x hx
        exact subject hc x hx
      · rename_i hsub
        split
        · rename_i hd
          exact probing hc hsub (by simpa using hd)
        · rename_i hd
          have hd : (s.createRow c).1.allDummies = true := by simpa using hd
          split
          · rename_i hz
            exact redundant hc hd hz
          · rename_i hz
            exact ensures_ok (contradictory hc hsub hd (by simpa using hz))

section Branches

theorem add_of_proxies (hp : c.hasProxies = true) :
    s.add limit c = .error (.breach (.unresolved c.name)) := by
  rw [Solver.add, if_pos hp]

variable (hp : c.hasProxies = false)
include hp

theorem add_of_duplicate (hc : s.hasConstraint c = true) :
    s.add limit c = .ok (s, .error .duplicateConstraint) := by
  rw [Solver.add, if_neg (by simp [hp]), if_pos hc]

variable (hc : s.hasConstraint c = false)
include hc

theorem add_of_subject {x : Symbol}
    (hx : subject? (s.createRow c).1 (s.createRow c).2.1 = some x) :
    s.add limit c = install limit ((s.createRow c).2.2.enter x ((s.createRow c).1.solveFor x)) c
      (s.createRow c).2.1 := by
  unfold Solver.add
  simp only [hp, hc, hx, Bool.false_eq_true, if_false]

theorem add_of_probing (hx : subject? (s.createRow c).1 (s.createRow c).2.1 = none)
    (hd : (s.createRow c).1.allDummies = false) :
    s.add limit c = installByProbe limit (s.createRow c).2.2 s.unknowns.size c (s.createRow c).1
      (s.createRow c).2.1 := by
  unfold Solver.add
  simp only [hp, hc, hx, hd, Bool.false_eq_true, if_false, Bool.not_false, if_true]

theorem add_of_redundant (hx : subject? (s.createRow c).1 (s.createRow c).2.1 = none)
    (hd : (s.createRow c).1.allDummies = true)
    (hz : Scalar.nearZero (s.createRow c).1.constant = true) :
    s.add limit c = install limit ((s.createRow c).2.2.enter (s.createRow c).2.1.marker
      ((s.createRow c).1.solveFor (s.createRow c).2.1.marker)) c (s.createRow c).2.1 := by
  unfold Solver.add
  simp only [hp, hc, hx, hd, hz, Bool.false_eq_true, if_false, Bool.not_true, if_true]

theorem add_of_contradictory (hx : subject? (s.createRow c).1 (s.createRow c).2.1 = none)
    (hd : (s.createRow c).1.allDummies = true)
    (hz : Scalar.nearZero (s.createRow c).1.constant = false) :
    s.add limit c = .ok ((s.createRow c).2.2.forgetAfter s.unknowns.size,
      .error .unsatisfiableConstraint) := by
  unfold Solver.add
  simp only [hp, hc, hx, hd, hz, Bool.false_eq_true, if_false, Bool.not_true]

end Branches

end Adding

section Removing

theorem ensures_remove {Q : Solver α × Except RemoveError Unit → Prop}
    (unknown : s.constraints.find? c = none → Q (s, .error .unknownConstraint))
    (known : ∀ e, s.constraints.find? c = some e →
      Ensures (reoptimize limit RemoveError.internal
        (uninstall { s with constraints := s.constraints.erase c } e.1 e.2)) Q) :
    Ensures (s.remove limit c) Q := by
  unfold Solver.remove
  split
  · rename_i hf
    exact ensures_ok (unknown hf)
  · rename_i installed tag hf
    exact known (installed, tag) hf

/-- Taking back the reference of a term counts it, and forgets the variable with its
row if no reference is left. -/
theorem releaseVariable_cases (s : Solver α) (t : Term α) :
    s.releaseVariable t = { s with unknowns := countReference (· - 1) s.unknowns t } ∨
      ∃ entry, (countReference (· - 1) s.unknowns t).get? t.unknown = some entry ∧
        entry.references = 0 ∧
        s.releaseVariable t = { s.dropRow entry.symbol with
          unknowns := (countReference (· - 1) s.unknowns t).erase t.unknown } := by
  unfold releaseVariable
  dsimp only
  split
  · exact Or.inl rfl
  · split
    · exact Or.inl rfl
    · rename_i entry hget
      split
      · rename_i hz
        exact Or.inr ⟨entry, hget, hz, rfl⟩
      · exact Or.inl rfl

/-- What counting a reference keeps, and forgetting a variable with its row, taking back the
references of a constraint keeps. -/
theorem releaseVariables_induction {motive : Solver α → Prop} (start : motive s)
    (count : ∀ u t, motive u → motive { u with unknowns := countReference (· - 1) u.unknowns t })
    (forget : ∀ u t x, motive u → motive { u.dropRow x with
      unknowns := (countReference (· - 1) u.unknowns t).erase t.unknown }) (c : Constraint α) :
    motive (s.releaseVariables c) := by
  refine List.foldlRecOn c.expression.terms releaseVariable start (fun u hu t _ => ?_)
  rcases releaseVariable_cases u t with he | ⟨entry, -, -, he⟩
  · rw [he]
    exact count u t hu
  · rw [he]
    exact forget u t entry.symbol hu

/-- What counting a reference keeps, taking the references of a constraint keeps. -/
theorem retainVariables_induction {motive : OrderedMap Variable (VariableEntry α) → Prop}
    (start : motive s.unknowns) (count : ∀ m t, motive m → motive (countReference (· + 1) m t))
    (c : Constraint α) : motive (s.retainVariables c).unknowns :=
  List.foldlRecOn c.expression.terms (countReference (· + 1)) start (fun m hm t _ => count m t hm)

/-- A property that taking a constraint out keeps: it survives dropped rows and
substitutions, and does not depend on the objective or on the variables. -/
structure RemovalStable (I : Solver α → Prop) : Prop where
  dropRow : ∀ s x, I s → I (s.dropRow x)
  substitute : ∀ s x q, I s → I (s.substitute x q)
  withObjective : ∀ s r, I s → I { s with objective := r }
  withUnknowns : ∀ s m, I s → I { s with unknowns := m }
  withEdits : ∀ s m, I s → I { s with edits := m }

variable {I : Solver α → Prop}

theorem RemovalStable.removeWeights (h : RemovalStable I) (hs : I s) (c : Constraint α)
    (tag : Tag) : I (s.removeWeights c tag) := by
  refine List.foldlRecOn tag.symbols (removeWeight c.strength.value) hs (fun u hu x _ => ?_)
  unfold removeWeight
  split
  · exact hu
  · split <;> exact h.withObjective u _ hu

theorem RemovalStable.removeMarker (h : RemovalStable I) (hs : I s) (marker : Symbol) :
    I (s.removeMarker marker) := by
  unfold Solver.removeMarker
  split
  · exact h.dropRow s marker hs
  · split
    · exact hs
    · exact h.substitute _ marker _ (h.dropRow s _ hs)

theorem RemovalStable.releaseVariables (h : RemovalStable I) (hs : I s) (c : Constraint α) :
    I (s.releaseVariables c) :=
  releaseVariables_induction hs (fun u _ hu => h.withUnknowns u _ hu)
    (fun u _ x hu => h.withUnknowns _ _ (h.dropRow u x hu)) c

theorem RemovalStable.uninstall (h : RemovalStable I) (hs : I s) (c : Constraint α)
    (tag : Tag) : I (s.uninstall c tag) := by
  have hm := h.removeMarker (h.removeWeights hs c tag) tag.marker
  refine h.releaseVariables (h.withEdits _ _ ?_) c
  cases tag.other with
  | none => exact hm
  | some x => exact h.dropRow _ x hm

end Removing

section Editing

variable {v : Variable}

/-- Beginning an edit fails at once, or comes down to an addition. -/
theorem ensures_addEdit {strength : Strength α} {Q : Solver α × Except EditError Unit → Prop}
    (duplicate : s.hasEditVariable v = true → Q (s, .error .duplicateEditVariable))
    (required : s.hasEditVariable v = false → Q (s, .error .badRequiredStrength))
    (adding : s.hasEditVariable v = false →
      (Strength.clip strength.value).isRequired = false →
        Ensures (s.add limit (holding v (s.value v) (.clip strength.value))) (fun p =>
          (∀ tag, p.2 = .ok () →
            p.1.constraints.get? (holding v (s.value v) (.clip strength.value)) = some tag →
              Q ({ p.1 with
                edits := p.1.edits.insert v
                  ⟨tag, holding v (s.value v) (.clip strength.value), s.value v⟩ }, .ok ())) ∧
          (p.2 = .ok () →
            p.1.constraints.get? (holding v (s.value v) (.clip strength.value)) = none →
              ∀ text, Q (p.1, .error (.internal text))) ∧
          ∀ e, p.2 = .error e → Q (p.1, .error e.toEdit))) :
    Ensures (s.addEdit limit v strength) Q := by
  unfold Solver.addEdit
  dsimp only
  split
  · rename_i hv
    exact ensures_ok (duplicate hv)
  · rename_i hv
    have hv : s.hasEditVariable v = false := by simpa using hv
    split
    · exact ensures_ok (required hv)
    · rename_i hr
      refine Ensures.map ((adding hv (by simpa using hr)).mono ?_)
      rintro ⟨s', answer⟩ ⟨hdone, hlost, herr⟩
      cases answer with
      | error e => exact herr e rfl
      | ok u =>
          dsimp only
          split
          · rename_i hg
            exact hlost rfl hg _
          · rename_i tag hg
            exact hdone tag rfl hg

/-- Ending an edit comes down to a removal. -/
theorem ensures_removeEdit {Q : Solver α × Except EditError Unit → Prop}
    (unknown : s.edits.get? v = none → Q (s, .error .unknownEditVariable))
    (known : ∀ edit, s.edits.get? v = some edit →
      Ensures (remove limit { s with edits := s.edits.erase v } edit.constraint)
        (fun p => Q (p.1, p.2.mapError RemoveError.toEdit))) :
    Ensures (s.removeEdit limit v) Q := by
  unfold Solver.removeEdit
  split
  · rename_i hv
    exact ensures_ok (unknown hv)
  · rename_i edit hv
    exact Ensures.map (known edit hv)

/-- A suggestion is of the same value, or is followed by dual steps. -/
theorem ensures_suggest {x : α} {Q : Solver α × Except SuggestError Unit → Prop}
    (unknown : s.edits.get? v = none → Q (s, .error .unknownEditVariable))
    (same : ∀ edit, s.edits.get? v = some edit → Scalar.isZero (x - edit.constant) = true →
      Q ({ s with edits := s.edits.modify v (fun edit => { edit with constant := x }) }, .ok ()))
    (moved : ∀ edit, s.edits.get? v = some edit →
      Ensures (dualOptimize limit (shiftEdit { s with
        edits := s.edits.modify v (fun edit => { edit with constant := x }) } edit.tag
          (x - edit.constant)))
        (fun p => Q (p.1, p.2.mapError (fun why => .internal why.message)))) :
    Ensures (s.suggest limit v x) Q := by
  unfold Solver.suggest
  split
  · rename_i hv
    exact ensures_ok (unknown hv)
  · rename_i edit hv
    dsimp only
    split
    · rename_i hz
      exact ensures_ok (same edit hv hz)
    · exact Ensures.map (moved edit hv)

end Editing

end Solver
end Tether
