import Tether.Variable

/-!
# Calls that give no answer

An ordinary failure is an answer, and the call that gives it leaves a state
behind.  A halt is neither: either the caller broke a promise, or the pivot
budget ran out before the pivots came to an end.
-/

namespace Tether

/-- A promise that a caller broke. -/
inductive Breach
  /-- The replacement of a proxy variable was a proxy variable again. -/
  | proxyForProxy (proxy replacement : Variable)
  /-- A constraint that refers to proxies was handed to a solver. -/
  | unresolved (name : String)
  /-- A proxy constraint was registered while it was registered. -/
  | registeredTwice (name : String)
  /-- A proxy constraint was unregistered while it was not registered. -/
  | notRegistered (name : String)
  /-- A touch began while it was active. -/
  | begunTwice (id : TouchId)
deriving DecidableEq

/-- What a broken promise is reported as. -/
def Breach.message : Breach → String
  | .proxyForProxy proxy replacement =>
      "proxy replacement for " ++ proxy.text ++ " returned another proxy ("
        ++ replacement.text ++ ")"
  | .unresolved name =>
      "constraint " ++ name ++ " must be resolved before it reaches the solver"
  | .registeredTwice name =>
      "proxy constraint " ++ name ++ " registered twice"
  | .notRegistered name =>
      "proxy constraint " ++ name ++ " is not registered"
  | .begunTwice id =>
      "touch " ++ toString id.value.toNat ++ " began twice"

/-- Why a call gave no answer. -/
inductive Halt
  /-- The caller broke a promise. -/
  | breach (b : Breach)
  /-- The budget of pivots ran out. -/
  | unfinished
deriving DecidableEq

end Tether
