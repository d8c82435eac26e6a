import Tether.Scalar.Basic

/-!
# Rational scalars

Exact arithmetic, in two readings of the tolerance.

* A rational number is near zero only if it is zero, and infeasible as soon
  as it is negative.
* A coarse rational has the tolerance of double precision: anything smaller
  than a hundred-millionth is near zero.

There is no infinite rational, so every value improves on having no bound.
-/

namespace Tether

/-- The order of the rationals as an ordering. -/
def rankRat (x y : Rat) : Ordering :=
  if x < y then .lt else if x = y then .eq else .gt

instance : Scalar Rat where
  add := (· + ·)
  sub := (· - ·)
  mul := (· * ·)
  div := (· / ·)
  neg x := -x
  ofNat n := (n : Rat)
  identical := inferInstance
  less x y := decide (x < y)
  equals x y := decide (x = y)
  rank := rankRat
  nearZero x := decide (x = 0)
  tolerance := 0
  bounded _ := true

/-- A rational number read with a tolerance. -/
structure Coarse where
  /-- The exact value. -/
  value : Rat
deriving DecidableEq

namespace Coarse

/-- A hundred-millionth. -/
def epsilon : Rat :=
  1 / 100000000

instance : Scalar Coarse where
  add x y := ⟨x.value + y.value⟩
  sub x y := ⟨x.value - y.value⟩
  mul x y := ⟨x.value * y.value⟩
  div x y := ⟨x.value / y.value⟩
  neg x := ⟨-x.value⟩
  ofNat n := ⟨(n : Rat)⟩
  identical := inferInstance
  less x y := decide (x.value < y.value)
  equals x y := decide (x.value = y.value)
  rank x y := rankRat x.value y.value
  nearZero x := decide (-epsilon < x.value ∧ x.value < epsilon)
  tolerance := ⟨epsilon⟩
  bounded _ := true

end Coarse

end Tether
