import Tether.Solver.Removal

/-!
# Edit variables

An edit variable is held at a value by a constraint of its own, which is
never required.  A suggestion moves that constraint in place: the two errors
of the constraint trade the difference, no row is added or removed, and the
dual steps restore feasibility.
-/

namespace Tether
namespace Solver

open Simplex

variable {α : Type} [Scalar α]

section Holding

/-- The constraint that holds a variable at a value. -/
def holding (v : Variable) (x : α) (strength : Strength α) : Constraint α :=
  .relate ("edit " ++ v.text) (.ofVariable v) .equalTo (.ofConstant x) strength

/-- Makes a variable an edit variable, held at its current value. -/
def addEdit (limit : Nat) (s : Solver α) (v : Variable) (strength : Strength α) :
    Outcome (Solver α) EditError :=
  let strength : Strength α := .clip strength.value
  if s.hasEditVariable v then .ok (s, .error .duplicateEditVariable)
  else if strength.isRequired then .ok (s, .error .badRequiredStrength)
  else
    let current := s.value v
    let c := holding v current strength
    (add limit s c).map fun
      | (s, .error e) => (s, .error e.toEdit)
      | (s, .ok ()) =>
          match s.constraints.get? c with
          | none => (s, .error (.internal "edit constraint missing after insertion"))
          | some tag => ({ s with edits := s.edits.insert v ⟨tag, c, current⟩ }, .ok ())

/-- Ends an edit variable and removes the constraint that held it. -/
def removeEdit (limit : Nat) (s : Solver α) (v : Variable) :
    Outcome (Solver α) EditError :=
  match s.edits.get? v with
  | none => .ok (s, .error .unknownEditVariable)
  | some edit =>
      (remove limit { s with edits := s.edits.erase v } edit.constraint).map fun
        | (s, answer) => (s, answer.mapError RemoveError.toEdit)

end Holding

section Suggesting

/-- Adds to the constant of the row of a symbol and records it if it becomes
infeasible, whatever the symbol stands for. -/
def shiftRow (s : Solver α) (x : Symbol) (delta : α) : Solver α :=
  let changed := { s with tableau := s.tableau.modify x (·.shift delta) }
  if changed.isInfeasible x then
    { changed with infeasible := changed.infeasible ++ [x] }
  else changed

/-- The error beside the marker, if it is basic. -/
def basicOther? (s : Solver α) (tag : Tag) : Option Symbol :=
  tag.other.filter s.tableau.isBasic

/-- Moves the constraint of an edit variable by a difference.  If one of its
errors is basic, only that row moves; otherwise every row that mentions them
does. -/
def shiftEdit (s : Solver α) (tag : Tag) (delta : α) : Solver α :=
  if s.tableau.isBasic tag.marker then s.shiftRow tag.marker (-delta)
  else
    match s.basicOther? tag with
    | some other => s.shiftRow other delta
    | none =>
        s.modifyMentioning tag.marker
          (fun r => r.shift (delta * r.coefficient tag.marker))

/-- Suggests a value for an edit variable. -/
def suggest (limit : Nat) (s : Solver α) (v : Variable) (x : α) :
    Outcome (Solver α) SuggestError :=
  match s.edits.get? v with
  | none => .ok (s, .error .unknownEditVariable)
  | some edit =>
      let delta := x - edit.constant
      let s := { s with edits := s.edits.modify v (fun edit => { edit with constant := x }) }
      if Scalar.isZero delta then .ok (s, .ok ())
      else
        (dualOptimize limit (s.shiftEdit edit.tag delta)).map fun
          | (s, answer) => (s, answer.mapError (fun why => .internal why.message))

end Suggesting

end Solver
end Tether
