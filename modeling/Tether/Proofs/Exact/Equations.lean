import Tether.Proofs.Exact.Runs

/-!
# The equations of the installed constraints

Every constraint has one equation in its symbols.  An inequality has a slack and,
unless it is required, an error that makes up for what the slack cannot; a
required equality has a dummy, and any other equality has two errors, one above
and one below zero.

The tableau of every solver that a run reaches represents exactly the equations
of the installed constraints, and its objective is what their errors weigh.
-/

namespace Tether

open Simplex

variable {c : Constraint Rat} {tag : Tag} {ν : Variable → Rat} {σ : Symbol → Rat}
  {l : List (Constraint Rat × Tag)}

section Balance

/-- The equation of a constraint in its symbols. -/
def Tag.Equation (tag : Tag) (c : Constraint Rat) (ν : Variable → Rat) (σ : Symbol → Rat) :
    Prop :=
  match c.relation, c.strength.isRequired with
  | .lessOrEqual, _ => c.expression.eval ν + σ tag.marker - tag.other.elim 0 σ = 0
  | .greaterOrEqual, _ => c.expression.eval ν - σ tag.marker + tag.other.elim 0 σ = 0
  | .equalTo, true => c.expression.eval ν + σ tag.marker = 0
  | .equalTo, false => c.expression.eval ν - σ tag.marker + tag.other.elim 0 σ = 0

/-- The symbols satisfy the equation of a constraint exactly if they balance it. -/
theorem Tag.Fits.equation_iff (h : tag.Fits c) : tag.Equation c ν σ ↔ tag.Balances c ν σ := by
  have hplus : ∀ x y z : Rat, x + y - z = 0 ↔ x + 1 * (y - z) = 0 := by
    intro x y z
    rw [one_mul, add_sub_assoc]
  have hminus : ∀ x y z : Rat, x - y + z = 0 ↔ x + -1 * (y - z) = 0 := by
    intro x y z
    rw [show x + -1 * (y - z) = x - y + z by ring]
  unfold Tag.Balances
  cases hrel : c.relation with
  | lessOrEqual =>
      simp only [Equation, hrel]
      rw [Constraint.sense_of_lessOrEqual hrel, hplus]
  | greaterOrEqual =>
      simp only [Equation, hrel]
      rw [Constraint.sense_of_greaterOrEqual hrel, hminus]
  | equalTo =>
      have hsense := Constraint.sense_of_equalTo hrel
      cases hreq : c.strength.isRequired with
      | true =>
          rw [if_pos hreq] at hsense
          simp only [Equation, hrel, hreq]
          rw [hsense, h.other_eq_none hreq, Option.elim_none, ← hplus, sub_zero]
      | false =>
          rw [if_neg (by simp [hreq])] at hsense
          simp only [Equation, hrel, hreq]
          rw [hsense, hminus]

end Balance

section Errors

/-- The sum of the errors of a preference: the symbol beside the marker, and the
marker too if it is an equality. -/
def Tag.errors (tag : Tag) (c : Constraint Rat) (σ : Symbol → Rat) : Rat :=
  match c.relation with
  | .equalTo => σ tag.marker + tag.other.elim 0 σ
  | _ => tag.other.elim 0 σ

/-- What the errors of the preferences in a list weigh. -/
def weighedErrors (σ : Symbol → Rat) (l : List (Constraint Rat × Tag)) : Rat :=
  ((l.filter (fun e => !e.1.strength.isRequired)).map
    (fun e => e.1.strength.value * e.2.errors e.1 σ)).sum

/-- A preference misses what its errors are. -/
theorem Tag.Fits.missed_eq_errors (h : tag.Fits c) (hr : c.strength.isRequired = false) :
    tag.missed σ = tag.errors c σ := by
  obtain ⟨o, ho, hk⟩ := h.exists_other hr
  have hother : tag.other.elim 0 σ = σ o := by rw [ho, Option.elim_some]
  cases hrel : c.relation with
  | equalTo => simp only [errors, hrel, h.missed_of_equalTo hrel hr ho hk, hother]
  | lessOrEqual => simp only [errors, hrel, h.missed_of_ne (by simp [hrel]) ho hk, hother]
  | greaterOrEqual => simp only [errors, hrel, h.missed_of_ne (by simp [hrel]) ho hk, hother]

/-- What a list of constraints misses is what the errors of its preferences
weigh. -/
theorem penalty_eq_weighedErrors (hf : ∀ e ∈ l, e.2.Fits e.1) :
    penalty σ l = weighedErrors σ l := by
  induction l with
  | nil => rfl
  | cons e rest ih =>
      obtain ⟨he, hrest⟩ := List.forall_mem_cons.mp hf
      rw [penalty_cons, ih hrest, weighedErrors, weighedErrors]
      cases hr : e.1.strength.isRequired with
      | true =>
          rw [he.missed_of_required hr, mul_zero, zero_add, List.filter_cons_of_neg (by simp [hr])]
      | false =>
          rw [he.missed_eq_errors hr, List.filter_cons_of_pos (by simp [hr]), List.map_cons,
            List.sum_cons]

end Errors

namespace Solver

variable {s : Solver Rat} {answers : List (SolverAnswer Rat)} {calls : List (SolverCall Rat)}

/-- What models constraints is solved by the symbols that satisfy their equations. -/
theorem Models.solves_iff_equations {edits : OrderedMap Variable (Edit Rat)}
    (h : s.Models (demands edits l)) {t : Tableau Rat} (ht : Tagged t l) :
    s.tableau.Solves σ ↔ ∀ e ∈ l, e.2.Equation (e.1.current edits) (s.read σ) σ := by
  rw [h.solves, demands, List.forall_mem_map]
  refine forall₂_congr (fun e he => ?_)
  exact ((ht.wired edits).fits (e.1.current edits, e.2)
    (List.mem_map.mpr ⟨e, he, rfl⟩)).equation_iff.symm

/-- A sound solver is solved by the symbols that satisfy the equations of its
constraints. -/
theorem Sound.solves_iff_equations (h : s.Sound) : s.tableau.Solves σ ↔
    ∀ e ∈ s.constraints.entries, e.2.Equation (e.1.current s.edits) (s.read σ) σ :=
  h.optimal.models.solves_iff_equations h.ledger.tagged

/-- The objective of a sound solver is what the errors of its preferences weigh,
up to a constant. -/
theorem Sound.objective_eq_weighedErrors (h : s.Sound) : ∃ k, ∀ σ, s.tableau.Solves σ →
    s.objective.eval σ = k + weighedErrors σ s.constraints.entries := by
  obtain ⟨k, hk⟩ := h.optimal.models.objective
  refine ⟨k, fun σ hσ => ?_⟩
  rw [hk σ hσ, penalty_demands, penalty_eq_weighedErrors h.ledger.tagged.fits]

/-- After every run the tableau represents the installed constraints: its solutions
are the symbols that satisfy the equation of every constraint, with an edit
constraint taken where its variable aims, and on them the objective is what the
errors of the preferences weigh, up to a constant.  The symbols of a constraint
are of the kinds that it asks for, and the variables that it depends on have
symbols. -/
theorem tableau_represents_constraints (settings : Settings Rat) (limit : Nat)
    (hw : ∀ call ∈ calls, call.Weighted)
    (hrun : (empty settings).run limit calls = .ok (s, answers)) :
    (∀ e ∈ s.constraints.entries, e.2.Fits e.1 ∧ ∀ t ∈ e.1.expression.terms,
      t.coefficient ≠ 0 → s.hasVariable t.unknown = true) ∧
    (∀ e ∈ s.edits.entries, e.2.constraint ∈ s.constraints.keys ∧
      e.2.constraint.current s.edits =
        holding e.1 ((empty settings).aimsAfter limit (fun _ => 0) calls e.1)
          e.2.constraint.strength) ∧
    (∀ c : Constraint Rat, (∀ e ∈ s.edits.entries, (e.2.constraint == c) = false) →
      c.current s.edits = c) ∧
    (∀ σ, s.tableau.Solves σ ↔
      ∀ e ∈ s.constraints.entries, e.2.Equation (e.1.current s.edits) (s.read σ) σ) ∧
    ∃ k, ∀ σ, s.tableau.Solves σ →
      s.objective.eval σ = k + weighedErrors σ s.constraints.entries := by
  have hsound : s.Sound := sound_run settings limit hw _ hrun
  have haims := (aimed_empty settings (fun _ => 0)).run (ledger_empty settings) limit calls _ hrun
  refine ⟨fun e he => ⟨hsound.ledger.tagged.fits e he, fun t ht hz => ?_⟩,
    fun e he => ⟨OrderedMap.mem_keys_of_mem (hsound.ledger.held.installed e he), ?_⟩,
    fun c hc => Constraint.current_of_none hc, fun _ => hsound.solves_iff_equations,
    hsound.objective_eq_weighedErrors⟩
  · refine hsound.ledger.speaks (e.1.current s.edits, e.2) (List.mem_map.mpr ⟨e, he, rfl⟩) t ?_ hz
    rwa [hsound.ledger.held.terms_current]
  · rw [hsound.ledger.held.current_constraint he, haims e he]

/-- A required bound and a suggestion below it are two equations, and the tableau
has a row for each. -/
theorem tableau_represents_bound_and_suggestion :
    ∃ (s : Solver Rat) (answers : List (SolverAnswer Rat)),
      (empty .standard).run 9 [.add ⟨"floor", ⟨[.symbolic ⟨.entity ⟨0⟩, .width⟩ 1], -2⟩,
        .greaterOrEqual, .required⟩, .addEdit ⟨.entity ⟨0⟩, .width⟩ .strong,
        .suggest ⟨.entity ⟨0⟩, .width⟩ (-5)] = .ok (s, answers) ∧
      s.constraints.size = 2 ∧ s.tableau.basicCount = 2 ∧
      ∀ σ, s.tableau.Solves σ ↔
        ∀ e ∈ s.constraints.entries, e.2.Equation (e.1.current s.edits) (s.read σ) σ := by
  have hchain : ((empty .standard : Solver Rat).run 9 [.add ⟨"floor",
      ⟨[.symbolic ⟨.entity ⟨0⟩, .width⟩ 1], -2⟩, .greaterOrEqual, .required⟩,
      .addEdit ⟨.entity ⟨0⟩, .width⟩ .strong,
      .suggest ⟨.entity ⟨0⟩, .width⟩ (-5)]).toOption.any
        (fun p => p.1.constraints.size == 2 && p.1.tableau.basicCount == 2) = true := by
    decide +kernel
  obtain ⟨⟨s, answers⟩, hrun, hrest⟩ := exists_ok_of_any hchain
  obtain ⟨hsize, hcount⟩ := Bool.and_eq_true_iff.mp hrest
  exact ⟨s, answers, hrun, beq_iff_eq.mp hsize, beq_iff_eq.mp hcount,
    (tableau_represents_constraints .standard 9 (by decide +kernel) hrun).2.2.2.1⟩

end Solver

end Tether
