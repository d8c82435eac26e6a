import Tether.Solver.Error
import Tether.Solver.Pivoting

/-!
# Adding constraints

A constraint becomes a row that equals zero: its expression with the basic
symbols replaced by their rows, plus the symbols made for it, with the sign
chosen so that the constant is not negative.

The row then needs a subject, a symbol it can be solved for.

* An unrestricted symbol will do, and so will a symbol made for the
  constraint whose coefficient is negative.
* A row of dummies alone is redundant if its constant is near zero and
  contradicts the required constraints if not.
* Otherwise an artificial variable takes the place of the subject, and the
  row is lowered as an objective of its own.  The constraint can be
  satisfied exactly if that objective reaches zero; if it does not, the
  journal of the tableau undoes the attempt.
-/

namespace Tether
namespace Solver

open Simplex

variable {α : Type} [Scalar α]

section Rows

/-- The symbol of a variable, made on first use. -/
def symbolOf (s : Solver α) (v : Variable) : Symbol × Solver α :=
  match s.unknowns.get? v with
  | some entry => (entry.symbol, s)
  | none =>
      let (x, tableau) := s.tableau.newSymbol .external
      (x, { s with
        tableau
        unknowns := s.unknowns.insert v ⟨x, none, 0⟩ })

/-- Makes a symbol that stands for no variable. -/
def newSymbol (s : Solver α) (kind : SymbolKind) : Symbol × Solver α :=
  let (x, tableau) := s.tableau.newSymbol kind
  (x, { s with tableau })

/-- Adds to the coefficient of a symbol in the objective. -/
def addObjective (s : Solver α) (x : Symbol) (weight : α) : Solver α :=
  { s with objective := s.objective.insert x weight }

/-- Adds a term to a row: its variable if that is parametric, the row of its
variable if that is basic, and nothing if the coefficient is near zero. -/
def addTerm (draft : Row α × Solver α) (t : Term α) : Row α × Solver α :=
  if Scalar.nearZero t.coefficient then draft
  else
    let (x, s) := draft.2.symbolOf t.unknown
    match s.tableau.row? x with
    | some r => (draft.1.addRow r t.coefficient, s)
    | none => (draft.1.insert x t.coefficient, s)

/-- Adds the symbols of an inequality to its row.  The slack has the given
coefficient and the error, if there is one, the opposite one. -/
def addSlack (r : Row α) (s : Solver α) (strength : Strength α) (coefficient : α) :
    Row α × Tag × Solver α :=
  let (slack, s) := s.newSymbol .slack
  let r := r.insert slack coefficient
  if strength.isRequired then
    (r, ⟨slack, none⟩, s)
  else
    let (error, s) := s.newSymbol .error
    (r.insert error (-coefficient), ⟨slack, some error⟩,
      s.addObjective error strength.value)

/-- Adds the symbols of an equality to its row: a dummy if it is required,
otherwise the error above and the error below zero. -/
def addErrors (r : Row α) (s : Solver α) (strength : Strength α) :
    Row α × Tag × Solver α :=
  if strength.isRequired then
    let (dummy, s) := s.newSymbol .dummy
    (r.insert dummy Scalar.one, ⟨dummy, none⟩, s)
  else
    let (above, s) := s.newSymbol .error
    let (below, s) := s.newSymbol .error
    ((r.insert above (-Scalar.one)).insert below Scalar.one, ⟨above, some below⟩,
      (s.addObjective above strength.value).addObjective below strength.value)

/-- The row of a constraint and the symbols made for it. -/
def createRow (s : Solver α) (c : Constraint α) : Row α × Tag × Solver α :=
  let (r, s) := c.expression.terms.foldl addTerm (.ofConstant c.expression.constant, s)
  let (r, tag, s) :=
    match c.relation with
    | .lessOrEqual => addSlack r s c.strength Scalar.one
    | .greaterOrEqual => addSlack r s c.strength (-Scalar.one)
    | .equalTo => addErrors r s c.strength
  (if Scalar.negative r.constant then r.negate else r, tag, s)

/-- Whether a symbol is restricted and has a negative coefficient in a row. -/
def isFreeSubject (r : Row α) (x : Symbol) : Bool :=
  x.isPivotable && Scalar.negative (r.coefficient x)

/-- The symbol to solve a new row for: an unrestricted symbol, one with a
negative coefficient first, or else a symbol of the constraint itself. -/
def subject? (r : Row α) (tag : Tag) : Option Symbol :=
  let externals := r.cells.filter (·.1.isExternal)
  let fallback := externals.head?.or
    ((tag.symbols.find? (isFreeSubject r)).map (fun x => (x, Scalar.zero)))
  ((externals.find? (fun c => Scalar.negative c.2)).or fallback).map (·.1)

end Rows

section References

/-- Changes the number of references of a variable that is known. -/
def countReference (f : Nat → Nat) (unknowns : OrderedMap Variable (VariableEntry α))
    (t : Term α) : OrderedMap Variable (VariableEntry α) :=
  if Scalar.nearZero t.coefficient then unknowns
  else
    unknowns.modify t.unknown
      (fun entry => { entry with references := f entry.references })

/-- Counts the terms of a constraint as references. -/
def retainVariables (s : Solver α) (c : Constraint α) : Solver α :=
  { s with
    unknowns := c.expression.terms.foldl (countReference (· + 1)) s.unknowns }

/-- Forgets the variables created after the first ones. -/
def forgetAfter (s : Solver α) (known : Nat) : Solver α :=
  { s with unknowns := s.unknowns.take known }

end References

section Probing

/-- The artificial variable leaves the tableau and the objective. -/
def dropArtificial (s : Solver α) (artificial : Symbol) : Solver α :=
  { s with
    tableau := s.tableau.modifyMentioning artificial (fun _ r => r.erase artificial)
    objective := s.objective.erase artificial }

/-- Ends a probe whose objective is as low as it goes: whether it succeeded,
and the solver without the artificial variable. -/
def settleProbe (s : Solver α) (artificial : Symbol) (success : Bool) :
    Bool × Solver α :=
  match s.tableau.row? artificial with
  | none => (success, s.dropArtificial artificial)
  | some r =>
      let s := s.dropRow artificial
      if r.isConstant then (success, s)
      else
        match r.firstPivotable? with
        | none => (false, s)
        | some entering =>
            (success, (s.pivot artificial entering r).dropArtificial artificial)

/-- Adds a row by means of an artificial variable: whether the row can be
satisfied, unless the solver breaks down. -/
def probe (limit : Nat) (s : Solver α) (r : Row α) :
    Except Halt (Solver α × Except Breakdown Bool) :=
  let (artificial, s) := s.newSymbol .slack
  let s := { s with
    tableau := s.tableau.insert artificial r
    artificial := some r }
  (s.optimize .artificial limit).map fun
    | (s, .error why) => (s, .error why)
    | (s, .ok ()) =>
        let success := s.artificial.any (fun r => Scalar.nearZero r.constant)
        let (success, s) := settleProbe { s with artificial := none } artificial success
        (s, .ok success)

/-- The solver as it was before a probe, except that symbols may have been
used up. -/
def undoProbe (s : Solver α) (objective : Row α) (known : Nat) : Solver α :=
  { s.forgetAfter known with
    tableau := s.tableau.rollback
    objective
    artificial := none
    infeasible := [] }

/-- Closes the journal of a probe and keeps its changes. -/
def keepProbe (s : Solver α) : Solver α :=
  { s with tableau := s.tableau.commit }

end Probing

section Adding

/-- Lowers the objective after a change and forgets what was recorded as
infeasible, unless the solver breaks down. -/
def reoptimize {ε : Type} (limit : Nat) (internal : String → ε) (s : Solver α) :
    Outcome (Solver α) ε :=
  (s.optimize .primary limit).map fun
    | (s, .error why) => (s, .error (internal why.message))
    | (s, .ok ()) => ({ s with infeasible := [] }, .ok ())

/-- Installs a constraint whose row is in the tableau. -/
def install (limit : Nat) (s : Solver α) (c : Constraint α) (tag : Tag) :
    Outcome (Solver α) AddError :=
  let s := s.retainVariables c
  reoptimize limit .internal { s with constraints := s.constraints.insert c tag }

/-- Adds a row that has no subject of its own, and installs its constraint. -/
def installByProbe (limit : Nat) (s : Solver α) (known : Nat) (c : Constraint α)
    (r : Row α) (tag : Tag) : Outcome (Solver α) AddError :=
  let objective := s.objective
  (probe limit { s with tableau := s.tableau.openJournal } r).bind fun
    | (s, .error why) => .ok (s.keepProbe, .error (.internal why.message))
    | (s, .ok false) => .ok (s.undoProbe objective known, .error .unsatisfiableConstraint)
    | (s, .ok true) => install limit s.keepProbe c tag

/-- Adds a constraint.  A required constraint that contradicts the required
constraints already present is rejected and leaves the solver as it was. -/
def add (limit : Nat) (s : Solver α) (c : Constraint α) :
    Outcome (Solver α) AddError :=
  if c.hasProxies then .error (.breach (.unresolved c.name))
  else if s.hasConstraint c then .ok (s, .error .duplicateConstraint)
  else
    let known := s.unknowns.size
    let (r, tag, s) := s.createRow c
    match subject? r tag with
    | some x => install limit (s.enter x (r.solveFor x)) c tag
    | none =>
        if !r.allDummies then installByProbe limit s known c r tag
        else if Scalar.nearZero r.constant then
          install limit (s.enter tag.marker (r.solveFor tag.marker)) c tag
        else .ok (s.forgetAfter known, .error .unsatisfiableConstraint)

/-- Carries out a call for each element of a list, up to the first failure. -/
def forEach {β ε : Type} (call : Solver α → β → Outcome (Solver α) ε) (s : Solver α) :
    List β → Outcome (Solver α) ε
  | [] => .ok (s, .ok ())
  | x :: rest =>
      (call s x).bind fun
        | (s, .error e) => .ok (s, .error e)
        | (s, .ok ()) => forEach call s rest

/-- Adds constraints up to the first failure; those before it stay. -/
def addAll (limit : Nat) (s : Solver α) (cs : List (Constraint α)) :
    Outcome (Solver α) AddError :=
  forEach (add limit) s cs

end Adding

end Solver
end Tether
