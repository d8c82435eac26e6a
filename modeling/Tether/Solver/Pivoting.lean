import Tether.Solver.Basic

/-!
# Pivots

Rows change in two ways.  A symbol is substituted everywhere when it enters
the basis, and the rows that mention a symbol are shifted when an edit
constraint moves.  Both record the restricted rows that have become
infeasible.

* The primal step lowers an objective: the symbol with the most negative
  coefficient enters, and the restricted row that bounds it most tightly
  leaves.
* The dual step restores feasibility and keeps the objective lowest: the most
  infeasible recorded row leaves, and the symbol that costs the objective
  least per unit enters.

Ties go to the lowest symbol, so equal calls make equal tableaus.
-/

namespace Tether
namespace Solver

open Simplex

variable {α : Type} [Scalar α]

section Rows

/-- Whether a symbol is basic and its row is infeasible. -/
def isInfeasible (s : Solver α) (x : Symbol) : Bool :=
  (s.tableau.row? x).any Row.isInfeasible

/-- Records the restricted symbols of a list that are infeasible. -/
def recordInfeasible (s : Solver α) (candidates : List Symbol) : Solver α :=
  { s with
    infeasible := s.infeasible
      ++ candidates.filter (fun x => !x.isExternal && s.isInfeasible x) }

/-- Changes every row that mentions a symbol and records those that become
infeasible. -/
def modifyMentioning (s : Solver α) (x : Symbol) (f : Row α → Row α) : Solver α :=
  let changed := { s with tableau := s.tableau.modifyMentioning x (fun _ r => f r) }
  changed.recordInfeasible (s.tableau.mentioning x)

/-- Puts a row in the place of a symbol, in the tableau and the objectives. -/
def substitute (s : Solver α) (x : Symbol) (r : Row α) : Solver α :=
  let changed := s.modifyMentioning x (fun other => other.substitute x r)
  { changed with
    objective := changed.objective.substitute x r
    artificial := changed.artificial.map (fun other => other.substitute x r) }

/-- Makes a symbol basic: substitutes its row everywhere and keeps it. -/
def enter (s : Solver α) (x : Symbol) (r : Row α) : Solver α :=
  let changed := s.substitute x r
  { changed with tableau := changed.tableau.insert x r }

/-- Lets one symbol enter the basis in the place of another, whose row has
been taken out. -/
def pivot (s : Solver α) (leaving entering : Symbol) (r : Row α) : Solver α :=
  s.enter entering (r.exchange leaving entering)

/-- Takes the row of a symbol out of the tableau. -/
def dropRow (s : Solver α) (x : Symbol) : Solver α :=
  { s with tableau := s.tableau.erase x }

end Rows

section Primal

/-- Which objective is lowered. -/
inductive Goal
  /-- What the preferences miss. -/
  | primary
  /-- By how much the constraint that is probed is missed. -/
  | artificial
deriving DecidableEq

/-- The symbol that lowers an objective most per unit. -/
def entering? (objective : Row α) : Option Symbol :=
  least? Scalar.negative (objective.cells.filter (fun c => !c.1.isDummy))

/-- The restricted symbol that an entering symbol exhausts first. -/
def leaving? (t : Tableau α) (entering : Symbol) : Option Symbol :=
  least? Scalar.bounded <| t.basics.filterMap (fun b =>
    let x := b.2.coefficient entering
    if b.1.isPivotable && Scalar.negative x then
      some (b.1, -b.2.constant / x)
    else none)

/-- The row of a chosen symbol, beside the symbol. -/
def withRow (t : Tableau α) (choice : Option Symbol) : Option (Symbol × Row α) :=
  choice.bind (fun x => (t.row? x).map (fun r => (x, r)))

/-- The row that is lowered. -/
def goalRow? (s : Solver α) : Goal → Option (Row α)
  | .primary => some s.objective
  | .artificial => s.artificial

/-- One step towards the lowest objective. -/
def primalStep (goal : Goal) (s : Solver α) : Step (Solver α) :=
  match s.goalRow? goal with
  | none => .stuck s .noArtificial
  | some objective =>
      match entering? objective with
      | none => .finished s
      | some entering =>
          match withRow s.tableau (leaving? s.tableau entering) with
          | none => .stuck s .unbounded
          | some (leaving, r) => .pivoted ((s.dropRow leaving).pivot leaving entering r)

/-- Lowers an objective as far as it goes. -/
def optimize (goal : Goal) (limit : Nat) (s : Solver α) :
    Outcome (Solver α) Breakdown :=
  iterate (primalStep goal) limit s

end Primal

section Dual

/-- Whether one symbol is to leave before another: the lower row first, then
the lower symbol. -/
def leavesBefore (s : Solver α) (x y : Symbol) : Bool :=
  ((Scalar.rank (s.symbolValue x) (s.symbolValue y)).then (compare x.id y.id)).isLT

/-- The recorded symbols that are still infeasible. -/
def stillInfeasible (s : Solver α) : List Symbol :=
  s.infeasible.filter s.isInfeasible

/-- The recorded symbol with the lowest row. -/
def mostInfeasible? (s : Solver α) : Option Symbol :=
  match s.stillInfeasible with
  | [] => none
  | x :: rest => some (rest.foldl (fun best y => if s.leavesBefore y best then y else best) x)

/-- The symbol that raises a row and costs the objective least per unit. -/
def dualEntering? (s : Solver α) (r : Row α) : Option Symbol :=
  least? Scalar.bounded <| r.cells.filterMap (fun c =>
    if Scalar.positive c.2 && !c.1.isDummy then
      some (c.1, s.objective.coefficient c.1 / c.2)
    else none)

/-- One step towards feasibility. -/
def dualStep (s : Solver α) : Step (Solver α) :=
  match s.mostInfeasible? with
  | none => .finished { s with infeasible := [] }
  | some leaving =>
      let s := { s with infeasible := s.stillInfeasible.filter (· ≠ leaving) }
      match s.tableau.row? leaving with
      | none => .stuck s .vanished
      | some r =>
          match s.dualEntering? r with
          | none => .stuck s .noEntering
          | some entering => .pivoted ((s.dropRow leaving).pivot leaving entering r)

/-- Restores feasibility after a suggestion. -/
def dualOptimize (limit : Nat) (s : Solver α) : Outcome (Solver α) Breakdown :=
  iterate dualStep limit s

end Dual

end Solver
end Tether
