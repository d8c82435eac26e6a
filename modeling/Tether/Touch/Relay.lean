import Tether.Solver.Editing
import Tether.Touch.Listener

/-!
# Relaying to a solver

A listener that passes everything on to a solver.  Failures of the solver
are collected, in order, and nothing is undone.  A sample is the value that
the solver has for the variable; if the solver does not know the variable,
a fallback is asked.
-/

namespace Tether

/-- A solver and what happened while it was relayed to. -/
structure Relay (α : Type) where
  /-- The solver. -/
  solver : Solver α
  /-- The failures, oldest first. -/
  failures : List SolverError
  /-- The variables that the fallback was asked for, in order. -/
  asked : List Variable

/-- Steps of a relay: they change it and may halt. -/
abbrev RelayM (α : Type) : Type → Type :=
  StateT (Relay α) (Except Halt)

namespace Relay

variable {α : Type} [Scalar α]

/-- A relay to a solver, before anything happened. -/
def ofSolver (solver : Solver α) : Relay α :=
  ⟨solver, [], []⟩

/-- Takes over the state that a call left behind, and its failure. -/
def note {ε : Type} (r : Relay α) (wrap : ε → SolverError)
    (answer : Solver α × Except ε Unit) : Relay α :=
  match answer with
  | (solver, .ok ()) => { r with solver }
  | (solver, .error e) => { r with solver, failures := r.failures ++ [wrap e] }

/-- Makes a call to the solver. -/
def call {ε : Type} (wrap : ε → SolverError)
    (f : Solver α → Simplex.Outcome (Solver α) ε) : RelayM α Unit :=
  fun r => (f r.solver).map (fun answer => ((), r.note wrap answer))

/-- Passes on what happened to an edit variable. -/
def edit (limit : Nat) (v : Variable) : EditChange α → RelayM α Unit
  | .added strength => call .editVariable (fun s => s.addEdit limit v strength)
  | .suggested x => call .suggestValue (fun s => s.suggest limit v x)
  | .removed => call .editVariable (fun s => s.removeEdit limit v)

/-- The value of a variable, from the solver or else from the fallback. -/
def sample (fallback : Variable → α) (v : Variable) : RelayM α α :=
  fun r =>
    match r.solver.value? v with
    | some x => .ok (x, r)
    | none => .ok (fallback v, { r with asked := r.asked ++ [v] })

/-- The listener that passes everything on to the solver of a relay. -/
def listener (limit : Nat) (fallback : Variable → α) : Listener (RelayM α) α where
  added cs := cs.forM (fun c => call .addConstraint (fun s => s.add limit c))
  removed cs := cs.forM (fun c => call .removeConstraint (fun s => s.remove limit c))
  edited := edit limit
  sample := sample fallback

end Relay

end Tether
