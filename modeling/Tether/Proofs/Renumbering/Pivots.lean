import Tether.Proofs.OrderedMap
import Tether.Proofs.Outcome
import Tether.Proofs.Renumbering.Tableaus
import Tether.Solver.Pivoting

/-!
# Pivots under a renumbering

A solver mirrors another one if it is the same with a gap opened in the
numbering.  Both then choose the same symbols, so the pivot loops take the
same steps, and the solvers mirror each other still.
-/

namespace Tether
namespace Gap

open Simplex

variable {α : Type}

section Mirrors

/-- The tag once the gap is opened. -/
def tag (g : Gap) (t : Tag) : Tag :=
  ⟨g.symbol t.marker, t.other.map g.symbol⟩

/-- What is known about a variable once the gap is opened. -/
def entry (g : Gap) (e : VariableEntry α) : VariableEntry α :=
  { e with symbol := g.symbol e.symbol }

/-- What is known about an edit variable once the gap is opened. -/
def edit (g : Gap) (e : Edit α) : Edit α :=
  { e with tag := g.tag e.tag }

/-- The solver once the gap is opened, with a tableau where it is. -/
def solver (g : Gap) (s : Solver α) (t : Tableau α) : Solver α where
  settings := s.settings
  tableau := t
  objective := g.row s.objective
  artificial := s.artificial.map g.row
  constraints := s.constraints.mapValues (fun _ => g.tag)
  unknowns := s.unknowns.mapValues (fun _ => g.entry)
  edits := s.edits.mapValues (fun _ => g.edit)
  infeasible := s.infeasible.map g.symbol

/-- One solver is another one with the gap opened. -/
def Mirrors (g : Gap) (s u : Solver α) : Prop :=
  ∃ t, g.Opens s.tableau t ∧ u = g.solver s t

@[simp] theorem symbols_tag (g : Gap) (t : Tag) :
    (g.tag t).symbols = t.symbols.map g.symbol := by
  cases h : t.other <;> simp [Tag.symbols, tag, h]

variable {g : Gap} {s u : Solver α}

theorem Mirrors.opens (h : g.Mirrors s u) : g.Opens s.tableau u.tableau := by
  obtain ⟨t, ht, rfl⟩ := h
  exact ht

/-- What is not changed but for the tableau mirrors what is changed alike. -/
theorem Mirrors.withTableau (h : g.Mirrors s u) {t t' : Tableau α} (ht : g.Opens t t') :
    g.Mirrors { s with tableau := t } { u with tableau := t' } := by
  obtain ⟨t₀, -, rfl⟩ := h
  exact ⟨t', ht, rfl⟩

theorem Mirrors.withInfeasible (h : g.Mirrors s u) (l : List Symbol) :
    g.Mirrors { s with infeasible := l } { u with infeasible := l.map g.symbol } := by
  obtain ⟨t, ht, rfl⟩ := h
  exact ⟨t, ht, rfl⟩

theorem Mirrors.withObjective (h : g.Mirrors s u) (r : Row α) :
    g.Mirrors { s with objective := r } { u with objective := g.row r } := by
  obtain ⟨t, ht, rfl⟩ := h
  exact ⟨t, ht, rfl⟩

theorem Mirrors.withArtificial (h : g.Mirrors s u) (r : Option (Row α)) :
    g.Mirrors { s with artificial := r } { u with artificial := r.map g.row } := by
  obtain ⟨t, ht, rfl⟩ := h
  exact ⟨t, ht, rfl⟩

theorem Mirrors.objective_eq (h : g.Mirrors s u) : u.objective = g.row s.objective := by
  obtain ⟨t, -, rfl⟩ := h
  rfl

theorem Mirrors.artificial_eq (h : g.Mirrors s u) : u.artificial = s.artificial.map g.row := by
  obtain ⟨t, -, rfl⟩ := h
  rfl

theorem Mirrors.infeasible_eq (h : g.Mirrors s u) :
    u.infeasible = s.infeasible.map g.symbol := by
  obtain ⟨t, -, rfl⟩ := h
  rfl

theorem Mirrors.dropRow (h : g.Mirrors s u) (x : Symbol) :
    g.Mirrors (s.dropRow x) (u.dropRow (g.symbol x)) :=
  h.withTableau (h.opens.erase x)

theorem Opens.withRow_eq {t t' : Tableau α} (h : g.Opens t t') (choice : Option Symbol) :
    Solver.withRow t' (choice.map g.symbol) =
      (Solver.withRow t choice).map (fun p => (g.symbol p.1, g.row p.2)) := by
  cases choice with
  | none => rfl
  | some x =>
      simp only [Solver.withRow, Option.map_some, Option.bind_some, h.row?_eq]
      cases t.row? x <;> rfl

theorem Mirrors.goalRow?_eq (h : g.Mirrors s u) (goal : Solver.Goal) :
    u.goalRow? goal = (s.goalRow? goal).map g.row := by
  cases goal with
  | primary => exact congrArg some h.objective_eq
  | artificial => exact h.artificial_eq

end Mirrors

variable [Scalar α] {g : Gap} {s u : Solver α}

section Reading

theorem Mirrors.symbolValue_eq (h : g.Mirrors s u) (x : Symbol) :
    u.symbolValue (g.symbol x) = s.symbolValue x := by
  unfold Solver.symbolValue
  rw [h.opens.row?_eq]
  cases s.tableau.row? x <;> rfl

theorem Mirrors.isInfeasible_eq (h : g.Mirrors s u) (x : Symbol) :
    u.isInfeasible (g.symbol x) = s.isInfeasible x := by
  unfold Solver.isInfeasible
  rw [h.opens.row?_eq]
  cases s.tableau.row? x <;> rfl

end Reading

section Changing

theorem Mirrors.recordInfeasible (h : g.Mirrors s u) (l : List Symbol) :
    g.Mirrors (s.recordInfeasible l) (u.recordInfeasible (l.map g.symbol)) := by
  have hl : u.infeasible ++ (l.map g.symbol).filter
      (fun x => !x.isExternal && u.isInfeasible x) =
      (s.infeasible ++ l.filter (fun x => !x.isExternal && s.isInfeasible x)).map g.symbol := by
    rw [List.map_append, h.infeasible_eq, List.filter_map]
    congr 3
    funext x
    simp [h.isInfeasible_eq]
  unfold Solver.recordInfeasible
  rw [hl]
  exact h.withInfeasible _

theorem Mirrors.modifyMentioning (h : g.Mirrors s u) (x : Symbol) {f f' : Row α → Row α}
    (hf : ∀ r, f' (g.row r) = g.row (f r)) :
    g.Mirrors (s.modifyMentioning x f) (u.modifyMentioning (g.symbol x) f') := by
  unfold Solver.modifyMentioning
  rw [h.opens.mentioning_eq]
  exact (h.withTableau (h.opens.modifyMentioning x hf)).recordInfeasible _

theorem Mirrors.substitute (h : g.Mirrors s u) (x : Symbol) (r : Row α) :
    g.Mirrors (s.substitute x r) (u.substitute (g.symbol x) (g.row r)) := by
  have hm : g.Mirrors (s.modifyMentioning x (fun q => q.substitute x r))
      (u.modifyMentioning (g.symbol x) (fun q => q.substitute (g.symbol x) (g.row r))) :=
    h.modifyMentioning x (fun q => (g.row_substitute q x r).symm)
  have ho : u.objective.substitute (g.symbol x) (g.row r) =
      g.row (s.objective.substitute x r) := by
    rw [h.objective_eq, g.row_substitute]
  have ha : u.artificial.map (fun q => q.substitute (g.symbol x) (g.row r)) =
      (s.artificial.map (fun q => q.substitute x r)).map g.row := by
    rw [h.artificial_eq, Option.map_map, Option.map_map]
    congr 1
    funext q
    exact (g.row_substitute q x r).symm
  have := (hm.withObjective (s.objective.substitute x r)).withArtificial
    (s.artificial.map (fun q => q.substitute x r))
  rw [← ho, ← ha] at this
  exact this

theorem Mirrors.enter (h : g.Mirrors s u) (x : Symbol) (r : Row α) :
    g.Mirrors (s.enter x r) (u.enter (g.symbol x) (g.row r)) :=
  (h.substitute x r).withTableau ((h.substitute x r).opens.insert x r)

theorem Mirrors.pivot (h : g.Mirrors s u) (leaving entering : Symbol) (r : Row α) :
    g.Mirrors ((s.dropRow leaving).pivot leaving entering r)
      ((u.dropRow (g.symbol leaving)).pivot (g.symbol leaving) (g.symbol entering) (g.row r)) := by
  unfold Solver.pivot
  rw [← g.row_exchange]
  exact (h.dropRow leaving).enter entering _

end Changing

section Primal

theorem entering?_row (g : Gap) (r : Row α) :
    Solver.entering? (g.row r) = (Solver.entering? r).map g.symbol := by
  unfold Solver.entering?
  rw [← g.least?_map_cell, cells_row, List.filter_map]
  rfl

theorem Opens.leaving?_eq {t t' : Tableau α} (h : g.Opens t t') (x : Symbol) :
    Solver.leaving? t' (g.symbol x) = (Solver.leaving? t x).map g.symbol := by
  unfold Solver.leaving?
  rw [← g.least?_map_cell, h.basics_eq]
  congr 1
  refine g.filterMap_map_cell (fun b => ?_) _
  simp only [coefficient_row, isPivotable_symbol, constant_row]
  split <;> rfl

theorem Mirrors.primalStep (h : g.Mirrors s u) (goal : Solver.Goal) :
    (Solver.primalStep goal s).Matches g.Mirrors (Solver.primalStep goal u) := by
  unfold Solver.primalStep
  rw [h.goalRow?_eq]
  cases s.goalRow? goal with
  | none => exact ⟨h, rfl⟩
  | some objective =>
      dsimp only [Option.map_some]
      rw [g.entering?_row]
      cases Solver.entering? objective with
      | none => exact h
      | some entering =>
          dsimp only [Option.map_some]
          rw [h.opens.leaving?_eq, h.opens.withRow_eq]
          cases Solver.withRow s.tableau (Solver.leaving? s.tableau entering) with
          | none => exact ⟨h, rfl⟩
          | some p => exact h.pivot p.1 entering p.2

theorem Mirrors.optimize (h : g.Mirrors s u) (goal : Solver.Goal) (limit : Nat) :
    Alike (SameAnswer g.Mirrors) (s.optimize goal limit) (u.optimize goal limit) :=
  alike_iterate (fun _ _ h => h.primalStep goal) limit h

end Primal

section Dual

theorem Mirrors.stillInfeasible_eq (h : g.Mirrors s u) :
    u.stillInfeasible = s.stillInfeasible.map g.symbol := by
  unfold Solver.stillInfeasible
  rw [h.infeasible_eq, List.filter_map]
  congr 2
  funext x
  exact h.isInfeasible_eq x

theorem Mirrors.leavesBefore_eq (h : g.Mirrors s u) (x y : Symbol) :
    u.leavesBefore (g.symbol x) (g.symbol y) = s.leavesBefore x y := by
  unfold Solver.leavesBefore
  rw [h.symbolValue_eq, h.symbolValue_eq]
  exact congrArg (fun o => (Ordering.then _ o).isLT) (g.compare_number x.id y.id)

theorem Mirrors.mostInfeasible?_eq (h : g.Mirrors s u) :
    u.mostInfeasible? = s.mostInfeasible?.map g.symbol := by
  unfold Solver.mostInfeasible?
  rw [h.stillInfeasible_eq]
  cases s.stillInfeasible with
  | nil => rfl
  | cons x rest =>
      simp only [List.map_cons, Option.map_some, Option.some.injEq]
      induction rest generalizing x with
      | nil => rfl
      | cons y rest ih =>
          rw [List.map_cons, List.foldl_cons, List.foldl_cons, h.leavesBefore_eq, ← ih]
          split <;> rfl

theorem Mirrors.dualEntering?_eq (h : g.Mirrors s u) (r : Row α) :
    u.dualEntering? (g.row r) = (s.dualEntering? r).map g.symbol := by
  unfold Solver.dualEntering?
  rw [← g.least?_map_cell, cells_row]
  congr 1
  refine g.filterMap_map_cell (fun c => ?_) _
  simp only [cell, isDummy_symbol, h.objective_eq, coefficient_row]
  split <;> rfl

theorem Mirrors.dualStep (h : g.Mirrors s u) :
    (Solver.dualStep s).Matches g.Mirrors (Solver.dualStep u) := by
  unfold Solver.dualStep
  rw [h.mostInfeasible?_eq]
  cases s.mostInfeasible? with
  | none => exact h.withInfeasible []
  | some leaving =>
      have hl : u.stillInfeasible.filter (· ≠ g.symbol leaving) =
          (s.stillInfeasible.filter (· ≠ leaving)).map g.symbol := by
        rw [h.stillInfeasible_eq, List.filter_map]
        congr 2
        funext x
        simp
      have hs := h.withInfeasible (s.stillInfeasible.filter (· ≠ leaving))
      rw [← hl] at hs
      dsimp only [Option.map_some]
      rw [h.opens.row?_eq]
      cases s.tableau.row? leaving with
      | none => exact ⟨hs, rfl⟩
      | some r =>
          dsimp only [Option.map_some]
          rw [hs.dualEntering?_eq]
          cases Solver.dualEntering? { s with
              infeasible := s.stillInfeasible.filter (· ≠ leaving) } r with
          | none => exact ⟨hs, rfl⟩
          | some entering => exact hs.pivot leaving entering r

theorem Mirrors.dualOptimize (h : g.Mirrors s u) (limit : Nat) :
    Alike (SameAnswer g.Mirrors) (s.dualOptimize limit) (u.dualOptimize limit) :=
  alike_iterate (fun _ _ h => h.dualStep) limit h

end Dual

end Gap
end Tether
