/-!
# Scalars

The numbers that coefficients, constants and values are made of.  A solver
needs four operations, two order tests and a tolerance, and nothing here
promises any law of arithmetic: what holds for every scalar holds whatever
rounding does.

Two comparisons are kept apart.

* Numeric comparison (less, equals) is the one the simplex method branches
  on.  A scalar that is not a number is neither less than nor equal to
  anything.
* Identity (decidable equality, refined by the total order rank) tells two
  representations apart and is what constraints are looked up by.
-/

namespace Tether

/-- Numbers a solver can run on. -/
class Scalar (α : Type) extends Add α, Sub α, Mul α, Div α, Neg α where
  /-- The scalar nearest to a natural number. -/
  ofNat : Nat → α
  /-- Identity of representations. -/
  identical : DecidableEq α
  /-- Numeric order. -/
  less : α → α → Bool
  /-- Numeric equality. -/
  equals : α → α → Bool
  /-- A total order of representations, consistent with identity. -/
  rank : α → α → Ordering
  /-- Whether a coefficient is too small to be kept. -/
  nearZero : α → Bool
  /-- How far below zero a restricted symbol may sink before it is infeasible. -/
  tolerance : α
  /-- Whether a value improves on having no bound at all. -/
  bounded : α → Bool

instance (priority := low) {α : Type} [Scalar α] : DecidableEq α :=
  Scalar.identical

namespace Scalar

variable {α : Type} [Scalar α]

/-- Zero, of positive sign where zeros are signed. -/
def zero : α :=
  ofNat 0

/-- One. -/
def one : α :=
  ofNat 1

/-- Strictly below zero. -/
def negative (x : α) : Bool :=
  less x zero

/-- Strictly above zero. -/
def positive (x : α) : Bool :=
  less zero x

/-- Numerically equal to zero. -/
def isZero (x : α) : Bool :=
  equals x zero

/-- At least as large, numerically. -/
def atLeast (x bound : α) : Bool :=
  less bound x || equals x bound

/-- How two scalars compare numerically; one that is not a number compares
with nothing. -/
def order? (x y : α) : Option Ordering :=
  if less x y then some .lt
  else if equals x y then some .eq
  else if less y x then some .gt
  else none

/-- Below zero by more than the tolerance. -/
def infeasible (x : α) : Bool :=
  less x (-tolerance)

end Scalar

end Tether
