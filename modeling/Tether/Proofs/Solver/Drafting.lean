import Mathlib.Data.List.Infix
import Tether.Proofs.Tableau.Journal
import Tether.Solver.Insertion

/-!
# Drafting a row

Creating the row of a constraint makes symbols and variables and, for a
preference, adds weights to the objective.  It changes nothing else: the new
symbols are unused, and the new variables stand behind the old ones.
-/

namespace Tether
namespace Solver

open Simplex

variable {α : Type}

/-- One solver is another one with unused symbols at the end of its tableau. -/
def Pads (u s : Solver α) : Prop :=
  u.tableau.Pads s.tableau ∧ u = { s with tableau := u.tableau }

theorem Pads.refl (s : Solver α) : s.Pads s :=
  ⟨.refl s.tableau, rfl⟩

/-- One solver gives another one back but for unused symbols at the end of its tableau;
what has failed meanwhile stays marked. -/
def GivesBack (u s : Solver α) : Prop :=
  ∃ t : Tableau α, t.Pads s.tableau ∧
    u = { s with tableau := { t with faulted := u.tableau.faulted } }

/-- If nothing has failed meanwhile, then unused symbols are the only difference. -/
theorem GivesBack.pads {s u : Solver α} (h : u.GivesBack s)
    (hf : u.tableau.faulted = s.tableau.faulted) : u.Pads s := by
  obtain ⟨t, hpads, hu⟩ := h
  rw [hf, ← hpads.faulted_eq] at hu
  have ht : u.tableau = t := congrArg (·.tableau) hu
  exact ⟨ht ▸ hpads, ht ▸ hu⟩

theorem Pads.givesBack {s u : Solver α} (h : u.Pads s) : u.GivesBack s :=
  ⟨u.tableau, h⟩

/-- A solver after symbols and variables have been made, with any objective. -/
structure Drafts (s u : Solver α) : Prop where
  settings : u.settings = s.settings
  constraints : u.constraints = s.constraints
  edits : u.edits = s.edits
  artificial : u.artificial = s.artificial
  infeasible : u.infeasible = s.infeasible
  tableau : u.tableau.Pads s.tableau
  unknowns : s.unknowns.entries <+: u.unknowns.entries

theorem Drafts.refl (s : Solver α) : Drafts s s :=
  ⟨rfl, rfl, rfl, rfl, rfl, .refl s.tableau, List.prefix_rfl⟩

theorem Drafts.trans {s t u : Solver α} (h : Drafts s t) (h' : Drafts t u) : Drafts s u where
  settings := h'.settings.trans h.settings
  constraints := h'.constraints.trans h.constraints
  edits := h'.edits.trans h.edits
  artificial := h'.artificial.trans h.artificial
  infeasible := h'.infeasible.trans h.infeasible
  tableau := h'.tableau.trans h.tableau
  unknowns := h.unknowns.trans h'.unknowns

theorem drafts_newSymbol (s : Solver α) (kind : SymbolKind) :
    Drafts s (s.newSymbol kind).2 :=
  ⟨rfl, rfl, rfl, rfl, rfl, Tableau.pads_newSymbol s.tableau kind, List.prefix_rfl⟩

/-- Forgetting the variables made since gives the variables of before. -/
theorem Drafts.unknowns_forgetAfter {s u : Solver α} (h : Drafts s u) :
    (u.forgetAfter s.unknowns.size).unknowns = s.unknowns := by
  have := List.prefix_iff_eq_take.mp h.unknowns
  simp only [forgetAfter, OrderedMap.take, OrderedMap.size, ← this]

section SymbolOf

theorem get?_eq_none_of_contains {κ β : Type} [BEq κ] {m : OrderedMap κ β} {k : κ}
    (h : m.get? k = none) : m.contains k = false := by
  rw [← OrderedMap.isSome_get?, h]
  rfl

theorem drafts_symbolOf (s : Solver α) (v : Variable) : Drafts s (s.symbolOf v).2 := by
  unfold symbolOf
  split
  · exact .refl s
  · rename_i hv
    refine ⟨rfl, rfl, rfl, rfl, rfl, Tableau.pads_newSymbol s.tableau .external, ?_⟩
    simp [OrderedMap.insert, get?_eq_none_of_contains hv]

theorem objective_symbolOf (s : Solver α) (v : Variable) :
    (s.symbolOf v).2.objective = s.objective := by
  unfold symbolOf
  split <;> rfl

end SymbolOf

variable [Scalar α]

theorem drafts_addObjective (s : Solver α) (x : Symbol) (weight : α) :
    Drafts s (s.addObjective x weight) :=
  ⟨rfl, rfl, rfl, rfl, rfl, .refl s.tableau, List.prefix_rfl⟩

section Terms

theorem drafts_addTerm (draft : Row α × Solver α) (t : Term α) :
    Drafts draft.2 (addTerm draft t).2 := by
  unfold addTerm
  split
  · exact .refl draft.2
  · dsimp only
    split
    · exact drafts_symbolOf draft.2 t.unknown
    · exact drafts_symbolOf draft.2 t.unknown

theorem objective_addTerm (draft : Row α × Solver α) (t : Term α) :
    (addTerm draft t).2.objective = draft.2.objective := by
  unfold addTerm
  split
  · rfl
  · dsimp only
    split
    · exact objective_symbolOf draft.2 t.unknown
    · exact objective_symbolOf draft.2 t.unknown

theorem drafts_foldl_addTerm (terms : List (Term α)) (draft : Row α × Solver α) :
    Drafts draft.2 (terms.foldl addTerm draft).2 :=
  List.foldlRecOn (motive := fun d : Row α × Solver α => Drafts draft.2 d.2) terms addTerm
    (.refl draft.2) (fun d hd t _ => hd.trans (drafts_addTerm d t))

theorem objective_foldl_addTerm (terms : List (Term α)) (draft : Row α × Solver α) :
    (terms.foldl addTerm draft).2.objective = draft.2.objective :=
  List.foldlRecOn (motive := fun d : Row α × Solver α => d.2.objective = draft.2.objective) terms
    addTerm rfl (fun d hd t _ => (objective_addTerm d t).trans hd)

end Terms

section CreateRow

theorem drafts_addSlack (r : Row α) (s : Solver α) (strength : Strength α) (x : α) :
    Drafts s (addSlack r s strength x).2.2 := by
  unfold addSlack
  dsimp only
  split
  · exact drafts_newSymbol s .slack
  · exact (drafts_newSymbol s .slack).trans
      ((drafts_newSymbol _ .error).trans (drafts_addObjective _ _ _))

theorem drafts_addErrors (r : Row α) (s : Solver α) (strength : Strength α) :
    Drafts s (addErrors r s strength).2.2 := by
  unfold addErrors
  split
  · exact drafts_newSymbol s .dummy
  · exact (drafts_newSymbol s .error).trans ((drafts_newSymbol _ .error).trans
      ((drafts_addObjective _ _ _).trans (drafts_addObjective _ _ _)))

theorem objective_addSlack (r : Row α) (s : Solver α) {strength : Strength α} (x : α)
    (h : strength.isRequired = true) :
    (addSlack r s strength x).2.2.objective = s.objective := by
  simp [addSlack, h, newSymbol]

theorem objective_addErrors (r : Row α) (s : Solver α) {strength : Strength α}
    (h : strength.isRequired = true) :
    (addErrors r s strength).2.2.objective = s.objective := by
  simp [addErrors, h, newSymbol]

/-- The symbols made for a constraint, after its terms have been added. -/
def addMarkers (r : Row α) (s : Solver α) (c : Constraint α) : Row α × Tag × Solver α :=
  match c.relation with
  | .lessOrEqual => addSlack r s c.strength Scalar.one
  | .greaterOrEqual => addSlack r s c.strength (-Scalar.one)
  | .equalTo => addErrors r s c.strength

/-- The row of the terms of a constraint. -/
def addTerms (s : Solver α) (c : Constraint α) : Row α × Solver α :=
  c.expression.terms.foldl addTerm (.ofConstant c.expression.constant, s)

theorem createRow_eq (s : Solver α) (c : Constraint α) :
    s.createRow c =
      let draft := s.addTerms c
      let made := addMarkers draft.1 draft.2 c
      (if Scalar.negative made.1.constant then made.1.negate else made.1, made.2.1, made.2.2) := by
  rfl

theorem drafts_addMarkers (r : Row α) (s : Solver α) (c : Constraint α) :
    Drafts s (addMarkers r s c).2.2 := by
  unfold addMarkers
  split
  · exact drafts_addSlack r s c.strength _
  · exact drafts_addSlack r s c.strength _
  · exact drafts_addErrors r s c.strength

theorem drafts_addTerms (s : Solver α) (c : Constraint α) : Drafts s (s.addTerms c).2 :=
  drafts_foldl_addTerm c.expression.terms (.ofConstant c.expression.constant, s)

/-- Creating a row makes symbols and variables only. -/
theorem drafts_createRow (s : Solver α) (c : Constraint α) :
    Drafts s (s.createRow c).2.2 :=
  (s.drafts_addTerms c).trans (drafts_addMarkers _ _ c)

/-- The row of a required constraint puts no weight into the objective. -/
theorem objective_createRow (s : Solver α) {c : Constraint α}
    (h : c.strength.isRequired = true) :
    (s.createRow c).2.2.objective = s.objective := by
  have ht : (s.addTerms c).2.objective = s.objective :=
    objective_foldl_addTerm c.expression.terms _
  rw [createRow_eq]
  dsimp only
  unfold addMarkers
  split
  · rw [objective_addSlack _ _ _ h, ht]
  · rw [objective_addSlack _ _ _ h, ht]
  · rw [objective_addErrors _ _ h, ht]

end CreateRow

end Solver
end Tether
