import Tether.Solver.Insertion

/-!
# Removing constraints

The weights of a constraint leave the objective first, since a pivot would
spread them over other symbols.  Then its marker is made basic, if it is not,
and the row of the marker is dropped; with it the constraint is gone.

Which row gives way to a marker that is not basic:

1. the row of a dummy, which belongs to a redundant twin of a required
   equality and lets the twin take over;
2. a restricted row that the marker lowers, the tightest one;
3. a restricted row that the marker raises, the tightest one;
4. the row of a variable.
-/

namespace Tether
namespace Solver

open Simplex

variable {α : Type} [Scalar α]

section Weights

/-- Takes the weight of an error out of the objective: the error itself if it
is parametric, its row if it is basic. -/
def removeWeight (strength : α) (s : Solver α) (x : Symbol) : Solver α :=
  if !x.isError then s
  else
    match s.tableau.row? x with
    | some r => { s with objective := s.objective.addRow r (-strength) }
    | none => s.addObjective x (-strength)

/-- Takes the weights of a constraint out of the objective. -/
def removeWeights (s : Solver α) (c : Constraint α) (tag : Tag) : Solver α :=
  tag.symbols.foldl (removeWeight c.strength.value) s

end Weights

section Marker

/-- The rows that mention a marker with a coefficient other than zero. -/
def rowsOf (t : Tableau α) (marker : Symbol) : List (Symbol × Row α) :=
  t.basics.filter (fun b => !Scalar.isZero (b.2.coefficient marker))

/-- Whether a symbol is neither unrestricted nor a dummy. -/
def isRestricted (x : Symbol) : Bool :=
  !x.isDummy && !x.isExternal

/-- The tightest restricted row that the marker lowers. -/
def lowered? (marker : Symbol) (rows : List (Symbol × Row α)) : Option Symbol :=
  least? Scalar.bounded <| rows.filterMap (fun b =>
    let x := b.2.coefficient marker
    if isRestricted b.1 && Scalar.negative x then
      some (b.1, -b.2.constant / x)
    else none)

/-- The tightest restricted row that the marker does not lower. -/
def raised? (marker : Symbol) (rows : List (Symbol × Row α)) : Option Symbol :=
  least? Scalar.bounded <| rows.filterMap (fun b =>
    let x := b.2.coefficient marker
    if isRestricted b.1 && !Scalar.negative x then
      some (b.1, b.2.constant / x)
    else none)

/-- The row that gives way to a marker; none if no row mentions it. -/
def markerLeaving? (t : Tableau α) (marker : Symbol) : Option Symbol :=
  let rows := rowsOf t marker
  let first (kind : Symbol → Bool) := (rows.find? (fun b => kind b.1)).map (·.1)
  (first Symbol.isDummy).or <| (lowered? marker rows).or <|
    (raised? marker rows).or (first Symbol.isExternal)

/-- Takes the equation of a marker out of the tableau. -/
def removeMarker (s : Solver α) (marker : Symbol) : Solver α :=
  if s.tableau.isBasic marker then s.dropRow marker
  else
    match withRow s.tableau (markerLeaving? s.tableau marker) with
    | none => s
    | some (leaving, r) =>
        (s.dropRow leaving).substitute marker (r.exchange leaving marker)

end Marker

section References

/-- Takes back one reference, and forgets the variable with its row if that
was the last one. -/
def releaseVariable (s : Solver α) (t : Term α) : Solver α :=
  let s := { s with unknowns := countReference (· - 1) s.unknowns t }
  if Scalar.nearZero t.coefficient || !s.settings.collectUnused then s
  else
    match s.unknowns.get? t.unknown with
    | none => s
    | some entry =>
        if entry.references = 0 then
          { (s.dropRow entry.symbol) with unknowns := s.unknowns.erase t.unknown }
        else s

/-- Takes back the references of a constraint. -/
def releaseVariables (s : Solver α) (c : Constraint α) : Solver α :=
  c.expression.terms.foldl releaseVariable s

end References

section Removing

/-- Takes a constraint, already taken off the list, out of the tableau, the
objective, the edit variables and the references. -/
def uninstall (s : Solver α) (c : Constraint α) (tag : Tag) : Solver α :=
  let s := (s.removeWeights c tag).removeMarker tag.marker
  let s := tag.other.elim s s.dropRow
  let s := { s with edits := s.edits.filter (fun _ edit => !(edit.constraint == c)) }
  s.releaseVariables c

/-- Removes a constraint.  If it holds an edit variable, that ends too. -/
def remove (limit : Nat) (s : Solver α) (c : Constraint α) :
    Outcome (Solver α) RemoveError :=
  match s.constraints.find? c with
  | none => .ok (s, .error .unknownConstraint)
  | some (installed, tag) =>
      let s := { s with constraints := s.constraints.erase c }
      reoptimize limit .internal (s.uninstall installed tag)

/-- Removes constraints up to the first failure. -/
def removeAll (limit : Nat) (s : Solver α) (cs : List (Constraint α)) :
    Outcome (Solver α) RemoveError :=
  forEach (remove limit) s cs

end Removing

end Solver
end Tether
