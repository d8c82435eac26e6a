import Tether.Constraint.Identity
import Tether.OrderedMap
import Tether.Simplex.Pivot
import Tether.Simplex.Tableau

/-!
# The state of a solver

A solver keeps the installed constraints, a tableau of which they are the
equations, and the objective: the sum of what each preference misses,
weighted by its strength.

Every installed constraint is tagged with the symbols made for it.  An
inequality has a slack as marker, and an error beside it unless it is
required; an equality has a dummy as marker if it is required, and two
errors if it is not.
-/

namespace Tether

open Simplex

section Settings

/-- Options shared by solvers and touch trackers. -/
structure Settings (α : Type) where
  /-- The strength of the edit variables of a touch. -/
  touchStrength : Strength α
  /-- Whether variables are forgotten once no constraint refers to them. -/
  collectUnused : Bool
deriving DecidableEq

namespace Settings

variable {α : Type} [Scalar α]

/-- Touches just below required, and unused variables forgotten. -/
def standard : Settings α :=
  ⟨.touch, true⟩

/-- Other settings with a touch strength, cut to the range of strengths. -/
def withTouchStrength (s : Settings α) (strength : Strength α) : Settings α :=
  { s with touchStrength := .clip strength.value }

/-- Other settings that do or do not forget unused variables. -/
def withCollectUnused (s : Settings α) (collect : Bool) : Settings α :=
  { s with collectUnused := collect }

end Settings

end Settings

section State

/-- The symbols made for a constraint. -/
structure Tag where
  /-- The slack, the dummy or the positive error of the constraint. -/
  marker : Symbol
  /-- The error beside the marker, if the constraint is not required. -/
  other : Option Symbol
deriving DecidableEq

namespace Tag

/-- The marker and the symbol beside it. -/
def symbols (t : Tag) : List Symbol :=
  t.marker :: t.other.toList

end Tag

/-- What a solver knows about a variable. -/
structure VariableEntry (α : Type) where
  /-- The symbol that stands for the variable. -/
  symbol : Symbol
  /-- The value that was last handed out. -/
  reported : Option α
  /-- How many terms of installed constraints refer to the variable. -/
  references : Nat

/-- What a solver knows about an edit variable. -/
structure Edit (α : Type) where
  /-- The symbols of the constraint that holds the variable. -/
  tag : Tag
  /-- The constraint that holds the variable. -/
  constraint : Constraint α
  /-- The value that was last suggested. -/
  constant : α

/-- An incremental constraint solver. -/
structure Solver (α : Type) where
  /-- The options of the solver. -/
  settings : Settings α
  /-- All symbols and the rows of the basic ones. -/
  tableau : Tableau α
  /-- The row that is kept as low as possible. -/
  objective : Row α
  /-- The row that is lowered while a constraint is probed. -/
  artificial : Option (Row α)
  /-- The installed constraints and their symbols. -/
  constraints : OrderedMap (Constraint α) Tag
  /-- The known variables, in order of creation. -/
  unknowns : OrderedMap Variable (VariableEntry α)
  /-- The edit variables. -/
  edits : OrderedMap Variable (Edit α)
  /-- Restricted basic symbols whose rows have become infeasible. -/
  infeasible : List Symbol

end State

namespace Solver

variable {α : Type} [Scalar α]

section Queries

/-- The solver without constraints. -/
def empty (settings : Settings α) : Solver α where
  settings := settings
  tableau := .empty
  objective := .ofConstant Scalar.zero
  artificial := none
  constraints := .empty
  unknowns := .empty
  edits := .empty
  infeasible := []

/-- The solver without constraints and with the same options. -/
def reset (s : Solver α) : Solver α :=
  .empty s.settings

/-- Whether a constraint of the same content is installed. -/
def hasConstraint (s : Solver α) (c : Constraint α) : Bool :=
  s.constraints.contains c

/-- Whether a variable is known. -/
def hasVariable (s : Solver α) (v : Variable) : Bool :=
  s.unknowns.contains v

/-- Whether a variable is an edit variable. -/
def hasEditVariable (s : Solver α) (v : Variable) : Bool :=
  s.edits.contains v

/-- The value of a symbol: the constant of its row, zero if it has none. -/
def symbolValue (s : Solver α) (x : Symbol) : α :=
  match s.tableau.row? x with
  | some r => r.constant
  | none => Scalar.zero

/-- The value of a variable, if it is known. -/
def value? (s : Solver α) (v : Variable) : Option α :=
  (s.unknowns.get? v).map (fun entry => s.symbolValue entry.symbol)

/-- The value of a variable, zero if it is not known. -/
def value (s : Solver α) (v : Variable) : α :=
  (s.value? v).getD Scalar.zero

end Queries

end Solver

end Tether
