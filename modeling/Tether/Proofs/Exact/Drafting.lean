import Tether.Proofs.Exact.Models
import Tether.Proofs.Solver.LedgerDrafting

/-!
# The row of a new constraint

The row that is created for a constraint is zero at exactly those solutions
that balance the constraint, and the weights of the constraint are added to the
objective.  The equations and the values of the known variables stay.
-/

namespace Tether
namespace Solver

open Simplex

variable {s u : Solver Rat} {r : Row Rat} {c : Constraint Rat} {σ : Symbol → Rat}
  {v : Variable} {draft : Row Rat × Solver Rat}

section Padding

theorem Drafts.solves_iff (h : Drafts s u) : u.tableau.Solves σ ↔ s.tableau.Solves σ := by
  simp only [Tableau.Solves, h.tableau.mem_basics_iff]

/-- The variables that were known keep their symbols. -/
theorem Drafts.read_eq (h : Drafts s u) (hv : s.unknowns.contains v = true) :
    u.read σ v = s.read σ v := by
  obtain ⟨rest, hrest⟩ := h.unknowns
  have hsome : (s.unknowns.get? v).isSome = true := by rwa [OrderedMap.isSome_get?]
  have hget : u.unknowns.get? v = s.unknowns.get? v := by
    unfold OrderedMap.get? OrderedMap.find? at hsome ⊢
    rw [← hrest, List.find?_append]
    cases hf : s.unknowns.entries.find? (fun e => e.1 == v) with
    | none => simp [hf] at hsome
    | some e => rfl
  rw [read, read, hget]

/-- New symbols are in no row, so the tiers of before are kept. -/
theorem Layered.of_drafts (h : s.Layered) (hd : Drafts s u) (hp : u.Proper)
    (ho : u.objective.Within 1) : u.Layered where
  proper := hp
  rows := fun b hb => h.rows b (hd.tableau.mem_basics_iff.mp hb)
  objective := ho
  artificial := by
    rw [hd.artificial]
    exact h.artificial

theorem Feasible.of_drafts (h : s.Feasible) (hd : Drafts s u) : u.Feasible :=
  fun b hb => h b (hd.tableau.mem_basics_iff.mp hb)

end Padding

section Terms

theorem read_symbolOf (s : Solver Rat) (v : Variable) (σ : Symbol → Rat) :
    (s.symbolOf v).2.read σ v = σ (s.symbolOf v).1 := by
  obtain ⟨entry, hentry, hx⟩ := get?_symbolOf s v
  rw [read, hentry, ← hx]
  rfl

/-- A term adds what it stands for, in tiers. -/
theorem gathers_addTerm (h : Draft draft) (hl : draft.2.Layered)
    (hw : draft.1.Within 2) (t : Term Rat) :
    (addTerm draft t).2.Layered ∧ (addTerm draft t).1.Within 2 ∧
      ∀ σ, draft.2.tableau.Solves σ → (addTerm draft t).1.eval σ =
        draft.1.eval σ + t.coefficient * (addTerm draft t).2.read σ t.unknown := by
  have hlayered := hl.of_drafts (drafts_addTerm draft t) (h.addTerm t).1.proper
    (by rw [objective_addTerm]; exact hl.objective)
  refine ⟨hlayered, ?_⟩
  obtain ⟨-, hk⟩ := h.1.symbolOf t.unknown
  have hd := drafts_symbolOf draft.2 t.unknown
  unfold Solver.addTerm
  split
  · rename_i hz
    rw [Scalar.nearZero_iff.mp hz]
    exact ⟨hw, fun σ _ => by rw [zero_mul, add_zero]⟩
  · dsimp only
    split
    · rename_i r hr
      have hb := Tableau.mem_basics_iff.mpr ⟨hk, hr⟩
      have hr₂ := (hl.rows _ (hd.tableau.mem_basics_iff.mp hb)).mono (Symbol.tier_le_two _)
      refine ⟨hw.addRow hr₂ _, fun σ hσ => ?_⟩
      have heq : σ (draft.2.symbolOf t.unknown).1 = r.eval σ := hd.solves_iff.mpr hσ _ hb
      rw [read_symbolOf, heq, Row.eval_addRow, mul_comm]
    · refine ⟨hw.insert (Symbol.tier_le_two _) _, fun σ _ => ?_⟩
      rw [read_symbolOf, Row.eval_insert]

/-- Terms add what they stand for, in tiers. -/
theorem gathers_foldl_addTerm (h : Draft draft) (hl : draft.2.Layered) (hw : draft.1.Within 2)
    (terms : List (Term Rat)) :
    (terms.foldl addTerm draft).2.Layered ∧ (terms.foldl addTerm draft).1.Within 2 ∧
      ∀ σ, draft.2.tableau.Solves σ → (terms.foldl addTerm draft).1.eval σ =
        draft.1.eval σ + Expression.sumTerms ((terms.foldl addTerm draft).2.read σ) terms := by
  induction terms generalizing draft with
  | nil => exact ⟨hl, hw, fun σ _ => (add_zero _).symm⟩
  | cons t rest ih =>
      obtain ⟨hl', hw', heval⟩ := gathers_addTerm h hl hw t
      obtain ⟨hl₂, hw₂, heval₂⟩ := ih (h.addTerm t) hl' hw'
      refine ⟨hl₂, hw₂, fun σ hσ => ?_⟩
      have hsum : Expression.sumTerms (((t :: rest).foldl addTerm draft).2.read σ) (t :: rest) =
          t.coefficient * (rest.foldl addTerm (addTerm draft t)).2.read σ t.unknown +
            Expression.sumTerms ((rest.foldl addTerm (addTerm draft t)).2.read σ) rest := rfl
      have hread : t.coefficient * (rest.foldl addTerm (addTerm draft t)).2.read σ t.unknown =
          t.coefficient * (addTerm draft t).2.read σ t.unknown := by
        by_cases hz : t.coefficient = 0
        · rw [hz, zero_mul, zero_mul]
        · have hnear : Scalar.nearZero t.coefficient = false := by
            rw [← Bool.not_eq_true, Scalar.nearZero_iff]
            exact hz
          rw [(drafts_foldl_addTerm rest (addTerm draft t)).read_eq (contains_addTerm draft hnear)]
      rw [List.foldl_cons, heval₂ σ ((drafts_addTerm draft t).solves_iff.mpr hσ), heval σ hσ]
      rw [List.foldl_cons] at hsum
      rw [hsum, hread]
      ring

/-- The terms of a constraint add up to its expression. -/
theorem gathers_addTerms (hs : s.Ledger) (hl : s.Layered) (c : Constraint Rat) :
    Draft (s.addTerms c) ∧ (s.addTerms c).2.Layered ∧ (s.addTerms c).1.Within 2 ∧
      ∀ σ, s.tableau.Solves σ →
        (s.addTerms c).1.eval σ = c.expression.eval ((s.addTerms c).2.read σ) := by
  have hstart := hs.draft_ofConstant c.expression.constant
  obtain ⟨hlayered, hwithin, heval⟩ := gathers_foldl_addTerm hstart hl
    ⟨Row.reduced_ofConstant _, by simp [Row.ofConstant, Row.symbols], by simp⟩ c.expression.terms
  refine ⟨(hstart.foldl_addTerm c.expression.terms).1, hlayered, hwithin, fun σ hσ => ?_⟩
  have hconst : (Row.ofConstant c.expression.constant).eval σ = c.expression.constant :=
    add_zero _
  refine (heval σ hσ).trans ?_
  rw [hconst]
  exact add_comm _ _

end Terms

section Markers

variable {tag : Tag}

/-- The symbols made for a constraint stand beside its expression, and the
errors among them have its weight. -/
structure Marked (s : Solver Rat) (c : Constraint Rat) (r : Row Rat)
    (p : Row Rat × Tag × Solver Rat) : Prop where
  unknowns : p.2.2.unknowns = s.unknowns
  row : ∀ σ, p.1.eval σ =
    r.eval σ + c.sense * (σ p.2.1.marker - p.2.1.other.elim 0 σ)
  objective : ∀ σ, p.2.2.objective.eval σ =
    s.objective.eval σ + c.strength.value * p.2.1.missed σ
  withinRow : r.Within 2 → p.1.Within 2
  withinObjective : s.objective.Within 1 → p.2.2.objective.Within 1

theorem marked_addSlack {x : Rat} (hx : c.sense = x) :
    Marked s c r (addSlack r s c.strength x) := by
  have hslack : ∀ σ, (s.newSymbol .slack).1.missed σ = 0 :=
    fun σ => Symbol.missed_of_ne (by simp [newSymbol, Tableau.newSymbol])
  unfold addSlack
  dsimp only
  split
  · refine ⟨rfl, fun σ => ?_, fun σ => ?_, fun h => h.insert (Symbol.tier_le_two _) _, fun h => h⟩
    · rw [Row.eval_insert, Option.elim_none, sub_zero, hx]
    · rw [Tag.missed, hslack, Option.elim_none, add_zero, mul_zero, add_zero]
      rfl
  · refine ⟨rfl, fun σ => ?_, fun σ => ?_, fun h => (h.insert (Symbol.tier_le_two _) _).insert
      (Symbol.tier_le_two _) _, fun h => h.insert (by exact Nat.le_refl 1) _⟩
    · rw [Row.eval_insert, Row.eval_insert, Option.elim_some, hx]
      ring
    · rw [Tag.missed, hslack, Option.elim_some, Symbol.missed_of_error rfl, zero_add]
      exact Row.eval_insert _ _ _

theorem marked_addErrors (hr : c.relation = .equalTo) :
    Marked s c r (addErrors r s c.strength) := by
  unfold addErrors
  split
  · rename_i hc
    have hdummy : ∀ σ, (s.newSymbol .dummy).1.missed σ = 0 :=
      fun σ => Symbol.missed_of_ne (by simp [newSymbol, Tableau.newSymbol])
    refine ⟨rfl, fun σ => ?_, fun σ => ?_, fun h => h.insert (Symbol.tier_le_two _) _, fun h => h⟩
    · rw [Row.eval_insert, Option.elim_none, sub_zero, Constraint.sense_of_equalTo hr, if_pos hc,
        Scalar.one_eq]
    · rw [Tag.missed, hdummy, Option.elim_none, add_zero, mul_zero, add_zero]
      rfl
  · rename_i hc
    refine ⟨rfl, fun σ => ?_, fun σ => ?_, fun h => (h.insert (Symbol.tier_le_two _) _).insert
      (Symbol.tier_le_two _) _, fun h => (h.insert (by exact Nat.le_refl 1) _).insert
        (by exact Nat.le_refl 1) _⟩
    · rw [Row.eval_insert, Row.eval_insert, Option.elim_some, Constraint.sense_of_equalTo hr,
        if_neg hc, Scalar.one_eq]
      ring
    · rw [Tag.missed, Option.elim_some, Symbol.missed_of_error rfl, Symbol.missed_of_error rfl]
      refine (Row.eval_insert _ _ _).trans ?_
      rw [mul_add, ← add_assoc]
      exact congrArg (· + _) (Row.eval_insert _ _ _)

theorem marked_addMarkers (s : Solver Rat) (r : Row Rat) (c : Constraint Rat) :
    Marked s c r (addMarkers r s c) := by
  unfold addMarkers
  split
  · rename_i hr
    exact marked_addSlack (Constraint.sense_of_lessOrEqual hr)
  · rename_i hr
    exact marked_addSlack (Constraint.sense_of_greaterOrEqual hr)
  · rename_i hr
    exact marked_addErrors hr

/-- The marker is in the row. -/
theorem Marked.coefficient_ne_zero {p : Row Rat × Tag × Solver Rat} (h : Marked s c r p)
    (hm : Made s c p.1 p.2.1 p.2.2) (hr : s.tableau.Admits r) :
    p.1.coefficient p.2.1.marker ≠ 0 := by
  have hfresh : p.2.1.marker ∉ r.symbols := by
    intro hin
    have hlt := (hr.parametric _ hin).1.id_lt
    have := hm.fresh p.2.1.marker (by simp [Tag.symbols])
    omega
  have hother : p.2.1.other.elim 0 (Function.update 0 p.2.1.marker 1) = (0 : Rat) := by
    cases ho : p.2.1.other with
    | none => rfl
    | some o =>
        have hne : o ≠ p.2.1.marker := by
          rintro rfl
          have := hm.distinct
          simp [Tag.symbols, ho] at this
        exact Function.update_of_ne hne 1 0
  have hzero : p.2.1.other.elim 0 (0 : Symbol → Rat) = 0 := by
    cases p.2.1.other <;> rfl
  rw [hm.admits.ordered.coefficient_eq, ← Row.eval_zero p.1, h.row, h.row, hother, hzero,
    Row.eval_update_of_notMem hfresh, Function.update_self, Pi.zero_apply]
  intro heq
  have hs : c.sense = 0 := by linarith
  have := c.sense_mul_self
  rw [hs] at this
  norm_num at this

end Markers

section Rows

variable {tag : Tag}

/-- A row and a tag for a constraint that say what the constraint says. -/
structure Drafted (s : Solver Rat) (c : Constraint Rat) (r : Row Rat) (tag : Tag)
    (u : Solver Rat) : Prop extends Made s c r tag u where
  layered : u.Layered
  within : r.Within 2
  nonneg : 0 ≤ r.constant
  row : ∀ σ, s.tableau.Solves σ → (r.eval σ = 0 ↔ tag.Balances c (u.read σ) σ)
  objective : ∀ σ, u.objective.eval σ = s.objective.eval σ + c.strength.value * tag.missed σ
  marker : r.coefficient tag.marker ≠ 0

/-- Creating the row of a constraint gives a row that says what the constraint
says. -/
theorem drafted_createRow (hs : s.Ledger) (hl : s.Layered) (c : Constraint Rat) :
    Drafted s c (s.createRow c).1 (s.createRow c).2.1 (s.createRow c).2.2 := by
  have hmade := made_createRow hs c
  obtain ⟨hd, hlayered, hwithin, heval⟩ := gathers_addTerms hs hl c
  have hmarked := marked_addMarkers (s.addTerms c).2 (s.addTerms c).1 c
  have hobj : (s.addTerms c).2.objective = s.objective :=
    objective_foldl_addTerm c.expression.terms _
  have hm := made_addMarkers (s := (s.addTerms c).2) (r := (s.addTerms c).1) hd c
  have hcoeff := hmarked.coefficient_ne_zero hm hd.2
  have hw := hmarked.withinRow hwithin
  have hrow : ∀ σ, s.tableau.Solves σ →
      ((addMarkers (s.addTerms c).1 (s.addTerms c).2 c).1.eval σ = 0 ↔
        (addMarkers (s.addTerms c).1 (s.addTerms c).2 c).2.1.Balances c
          ((addMarkers (s.addTerms c).1 (s.addTerms c).2 c).2.2.read σ) σ) := by
    intro σ hσ
    rw [hmarked.row, heval σ hσ, read_congr hmarked.unknowns]
    exact Iff.rfl
  have hlast := hlayered.of_drafts (drafts_addMarkers _ _ c) hm.ledger.proper
    (hmarked.withinObjective hlayered.objective)
  rw [createRow_eq] at hmade ⊢
  dsimp only at hmade ⊢
  refine ⟨hmade, hlast, ?_, ?_, fun σ hσ => ?_, fun σ => ?_, ?_⟩
  · split
    · exact hw.negate
    · exact hw
  · split
    · rename_i hneg
      exact neg_nonneg.mpr (le_of_lt (Scalar.negative_iff.mp hneg))
    · rename_i hneg
      exact Scalar.negative_eq_false_iff.mp (by simpa using hneg)
  · rw [← hrow σ hσ]
    split
    · rw [Row.eval_negate, neg_eq_zero]
    · exact Iff.rfl
  · rw [hmarked.objective, hobj]
  · split
    · rw [Row.coefficient_negate hm.admits.ordered]
      exact neg_ne_zero.mpr hcoeff
    · exact hcoeff

end Rows

end Solver
end Tether
