/-!
# Failures of a solver

Every call has its own failures.  An internal failure names its cause by
text only: no caller can do more with it than report it.
-/

namespace Tether

/-- Why a constraint was not added. -/
inductive AddError
  /-- A constraint of the same content is installed. -/
  | duplicateConstraint
  /-- The required constraints cannot all hold. -/
  | unsatisfiableConstraint
  /-- The solver broke down. -/
  | internal (detail : String)
deriving DecidableEq

/-- Why a constraint was not removed. -/
inductive RemoveError
  /-- The constraint is not installed. -/
  | unknownConstraint
  /-- The solver broke down. -/
  | internal (detail : String)
deriving DecidableEq

/-- Why an edit variable was not added or removed. -/
inductive EditError
  /-- The variable is an edit variable. -/
  | duplicateEditVariable
  /-- The variable is not an edit variable. -/
  | unknownEditVariable
  /-- An edit variable cannot be required. -/
  | badRequiredStrength
  /-- The solver broke down. -/
  | internal (detail : String)
deriving DecidableEq

/-- Why a suggestion was not taken. -/
inductive SuggestError
  /-- The variable is not an edit variable. -/
  | unknownEditVariable
  /-- The solver broke down. -/
  | internal (detail : String)
deriving DecidableEq

/-- A failure of any call. -/
inductive SolverError
  /-- Adding a constraint failed. -/
  | addConstraint (e : AddError)
  /-- Removing a constraint failed. -/
  | removeConstraint (e : RemoveError)
  /-- Adding or removing an edit variable failed. -/
  | editVariable (e : EditError)
  /-- Suggesting a value failed. -/
  | suggestValue (e : SuggestError)
deriving DecidableEq

section Messages

/-- What a breakdown of the solver is reported as. -/
def internalMessage (detail : String) : String :=
  "Internal solver error: " ++ detail

/-- What a failed addition is reported as. -/
def AddError.message : AddError → String
  | .duplicateConstraint => "The constraint has already been added to the solver"
  | .unsatisfiableConstraint => "The required constraint cannot be satisfied"
  | .internal detail => internalMessage detail

/-- What a failed removal is reported as. -/
def RemoveError.message : RemoveError → String
  | .unknownConstraint => "The constraint is not in the solver"
  | .internal detail => internalMessage detail

/-- What a failure with an edit variable is reported as. -/
def EditError.message : EditError → String
  | .duplicateEditVariable => "The variable is already an edit variable"
  | .unknownEditVariable => "The variable is not an edit variable"
  | .badRequiredStrength => "Edit variables cannot have required strength"
  | .internal detail => internalMessage detail

/-- What a failed suggestion is reported as. -/
def SuggestError.message : SuggestError → String
  | .unknownEditVariable => "The variable is not an edit variable"
  | .internal detail => internalMessage detail

/-- What any failure is reported as. -/
def SolverError.message : SolverError → String
  | .addConstraint e => e.message
  | .removeConstraint e => e.message
  | .editVariable e => e.message
  | .suggestValue e => e.message

end Messages

section Conversions

/-- A failed addition of the constraint behind an edit variable.  That
constraint is never required, so its rejection is a breakdown. -/
def AddError.toEdit : AddError → EditError
  | .duplicateConstraint => .duplicateEditVariable
  | .unsatisfiableConstraint => .internal "non-required edit constraint rejected"
  | .internal detail => .internal detail

/-- A failed removal of the constraint behind an edit variable. -/
def RemoveError.toEdit : RemoveError → EditError
  | .unknownConstraint => .internal "edit constraint missing from the solver"
  | .internal detail => .internal detail

end Conversions

end Tether
