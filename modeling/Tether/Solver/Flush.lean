import Tether.Solver.Basic

/-!
# Flushing changes

A flush hands out the variables whose value differs numerically from the
value handed out last, in order of creation.  A variable that was never
handed out counts as changed.
-/

namespace Tether

/-- Whether a flush handed out anything. -/
inductive FlushOutcome
  | noUpdates
  | updated
deriving DecidableEq, Inhabited

namespace Solver

variable {α : Type} [Scalar α]

/-- Whether the value of a variable differs from the one handed out last. -/
def isStale (s : Solver α) (entry : VariableEntry α) : Bool :=
  match entry.reported with
  | none => true
  | some x => !Scalar.equals x (s.symbolValue entry.symbol)

/-- The variables to hand out, with their values. -/
def pending (s : Solver α) : List (Variable × α) :=
  s.unknowns.entries.filterMap (fun e =>
    if s.isStale e.2 then some (e.1, s.symbolValue e.2.symbol) else none)

/-- The solver after everything has been handed out. -/
def markReported (s : Solver α) : Solver α :=
  { s with
    unknowns := s.unknowns.mapValues (fun _ entry =>
      if s.isStale entry then { entry with reported := some (s.symbolValue entry.symbol) }
      else entry) }

/-- Hands out what has changed. -/
def flush (s : Solver α) : Solver α × List (Variable × α) :=
  (s.markReported, s.pending)

/-- Whether a flush with these updates handed out anything. -/
def flushOutcome (updates : List (Variable × α)) : FlushOutcome :=
  if updates.isEmpty then .noUpdates else .updated

end Solver

end Tether
