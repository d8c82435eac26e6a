/-!
# The fewest digits that read back

A positive binary number m · 2 ^ q stands for the interval of reals that
round to it: from halfway to its lower neighbour to halfway to its upper
neighbour, ends included exactly if m is even.  The shortest decimal is the
one on the coarsest decimal grid that has a point in the interval.  Of the
grid only the two points around the number itself can be in it; of two
candidates the nearer one is taken, and an exact tie is up to the caller.

Everything is computed in natural numbers, by cross multiplication.
-/

namespace Tether
namespace Decimal

/-- The number digits · 10 ^ exponent. -/
structure Scaled where
  /-- The digits, as a natural number. -/
  digits : Nat
  /-- The power of ten they are multiplied by. -/
  exponent : Int
deriving DecidableEq

/-- Which of two equally near decimals is taken. -/
inductive Tie
  /-- The one with an even last digit. -/
  | toEven
  /-- The larger one. -/
  | up
deriving DecidableEq

/-- The reals that round to a number, in units of 2 ^ exponent. -/
structure Interval where
  /-- Halfway to the lower neighbour. -/
  low : Nat
  /-- The number itself. -/
  middle : Nat
  /-- Halfway to the upper neighbour. -/
  high : Nat
  /-- The power of two that the bounds count. -/
  exponent : Int
  /-- Whether the ends belong to the interval. -/
  closed : Bool

/-- The least significand of a number that is not subnormal: 2 ^ 52. -/
def leastNormal : Nat :=
  0x10000000000000

/-- The interval of the double precision number significand · 2 ^ exponent.
Just above a power of two the lower neighbour is half as far away, except at
the bottom of the range. -/
def Interval.ofBinary (significand : Nat) (exponent : Int) : Interval where
  low :=
    if significand = leastNormal ∧ -1074 < exponent then 4 * significand - 1
    else 4 * significand - 2
  middle := 4 * significand
  high := 4 * significand + 2
  exponent := exponent - 2
  closed := significand % 2 = 0

/-- A decimal grid seen from an interval: a bound x of the interval lies at
x · numerator / denominator steps of the grid. -/
structure Grid where
  /-- Factor of the bounds. -/
  numerator : Nat
  /-- Factor of the grid points. -/
  denominator : Nat

/-- The grid of the multiples of 10 ^ place. -/
def Interval.grid (i : Interval) (place : Int) : Grid where
  numerator := Nat.pow 2 i.exponent.toNat * Nat.pow 10 (-place).toNat
  denominator := Nat.pow 2 (-i.exponent).toNat * Nat.pow 10 place.toNat

/-- Whether a point of a grid lies in the interval. -/
def Interval.holds (i : Interval) (g : Grid) (point : Nat) : Bool :=
  let x := point * g.denominator
  let low := i.low * g.numerator
  let high := i.high * g.numerator
  if i.closed then decide (low ≤ x ∧ x ≤ high) else decide (low < x ∧ x < high)

/-- The nearer of the two grid points around the number. -/
def Interval.nearer (i : Interval) (g : Grid) (tie : Tie) (below : Nat) : Nat :=
  let twice := 2 * (i.middle * g.numerator)
  let between := (2 * below + 1) * g.denominator
  if twice < between then below
  else if between < twice then below + 1
  else
    match tie with
    | .up => below + 1
    | .toEven => if below % 2 = 0 then below else below + 1

/-- The point of the grid of 10 ^ place that stands for the number, if the
interval has one. -/
def Interval.point? (i : Interval) (tie : Tie) (place : Int) : Option Nat :=
  let g := i.grid place
  let below := i.middle * g.numerator / g.denominator
  match i.holds g below, i.holds g (below + 1) with
  | false, false => none
  | true, false => some below
  | false, true => some (below + 1)
  | true, true => some (i.nearer g tie below)

/-- Goes down from a place, grid by grid, to the first one with a point in
the interval.  If none of the given number of grids has one, answers the
number exactly. -/
def Interval.search (i : Interval) (tie : Tie) : Nat → Int → Scaled
  | 0, _ =>
      ⟨i.middle * Nat.pow 2 i.exponent.toNat * Nat.pow 5 (-i.exponent).toNat,
        min i.exponent 0⟩
  | grids + 1, place =>
      match i.point? tie place with
      | some digits => ⟨digits, place⟩
      | none => search i tie grids (place - 1)

/-- A place whose grid is too coarse for any number below 2 ^ bits. -/
def placeAbove (bits : Int) : Int :=
  Int.fdiv (bits * 30103) 100000 + 2

/-- The shortest decimal of the positive number significand · 2 ^ exponent. -/
def shortest (tie : Tie) (significand : Nat) (exponent : Int) : Scaled :=
  (Interval.ofBinary significand exponent).search tie 24
    (placeAbove (exponent + significand.log2 + 1))

end Decimal
end Tether
