import Tether.Solver.Editing
import Tether.Solver.Flush

/-!
# Calls and runs

Every call that a solver takes, with the answer it gives, as data.  A run
carries out one call after another; the state that an answer leaves behind is
where the next call starts, after a failure too.  A call without an answer
ends the run.
-/

namespace Tether

/-- A call to a solver. -/
inductive SolverCall (α : Type)
  | add (c : Constraint α)
  | addAll (cs : List (Constraint α))
  | remove (c : Constraint α)
  | removeAll (cs : List (Constraint α))
  | hasConstraint (c : Constraint α)
  | addEdit (v : Variable) (strength : Strength α)
  | removeEdit (v : Variable)
  | hasEditVariable (v : Variable)
  | hasVariable (v : Variable)
  | suggest (v : Variable) (x : α)
  | value (v : Variable)
  | flush
  | constraints
  | settings
  | reset

/-- The answer of a solver to a call. -/
inductive SolverAnswer (α : Type)
  /-- The call succeeded. -/
  | done
  /-- The call failed. -/
  | failed (e : SolverError)
  /-- Yes or no. -/
  | flag (b : Bool)
  /-- The value of a variable, if it is known. -/
  | value (x : Option α)
  /-- What a flush handed out. -/
  | updates (outcome : FlushOutcome) (changes : List (Variable × α))
  /-- The installed constraints, oldest first. -/
  | constraints (cs : List (Constraint α))
  /-- The options. -/
  | settings (s : Settings α)

namespace SolverAnswer

variable {α : Type}

/-- The answer of a call that may fail. -/
def ofExcept {ε : Type} (wrap : ε → SolverError) : Except ε Unit → SolverAnswer α
  | .ok () => done
  | .error e => failed (wrap e)

end SolverAnswer

namespace Solver

variable {α : Type} [Scalar α]

/-- The answer of a call that may fail, beside the state it leaves. -/
def answer {ε : Type} (wrap : ε → SolverError) (outcome : Simplex.Outcome (Solver α) ε) :
    Except Halt (Solver α × SolverAnswer α) :=
  outcome.map fun
    | (s, result) => (s, .ofExcept wrap result)

/-- Carries out a call. -/
def perform (limit : Nat) (s : Solver α) :
    SolverCall α → Except Halt (Solver α × SolverAnswer α)
  | .add c => answer .addConstraint (s.add limit c)
  | .addAll cs => answer .addConstraint (s.addAll limit cs)
  | .remove c => answer .removeConstraint (s.remove limit c)
  | .removeAll cs => answer .removeConstraint (s.removeAll limit cs)
  | .hasConstraint c => .ok (s, .flag (s.hasConstraint c))
  | .addEdit v strength => answer .editVariable (s.addEdit limit v strength)
  | .removeEdit v => answer .editVariable (s.removeEdit limit v)
  | .hasEditVariable v => .ok (s, .flag (s.hasEditVariable v))
  | .hasVariable v => .ok (s, .flag (s.hasVariable v))
  | .suggest v x => answer .suggestValue (s.suggest limit v x)
  | .value v => .ok (s, .value (s.value? v))
  | .flush =>
      let (s, changes) := s.flush
      .ok (s, .updates (flushOutcome changes) changes)
  | .constraints => .ok (s, .constraints s.constraints.keys)
  | .settings => .ok (s, .settings s.settings)
  | .reset => .ok (s.reset, .done)

/-- Carries out calls one after another and collects the answers. -/
def run (limit : Nat) (s : Solver α) :
    List (SolverCall α) → Except Halt (Solver α × List (SolverAnswer α))
  | [] => .ok (s, [])
  | call :: rest =>
      (s.perform limit call).bind fun
        | (s, first) =>
            (run limit s rest).map fun
              | (s, others) => (s, first :: others)

end Solver

end Tether
