import Tether.Scalar.Basic

/-!
# Double precision numbers

A number of 64 bits in the binary interchange format, held as its bits.
Identity is identity of bits, so the two zeros differ and every
not-a-number is a value of its own; the numeric tests are those of the
format.

An operation rounds once, to nearest with ties to even.  A not-a-number
passes through an operation: the left operand wins, and the result is made
quiet.  An operation with no numeric result answers the quiet not-a-number
of negative sign.
-/

namespace Tether

/-- A double precision number, as its 64 bits. -/
structure Binary64 where
  /-- Sign, exponent and fraction, from the highest bit down. -/
  bits : UInt64
deriving DecidableEq, Hashable, Inhabited

namespace Binary64

section Bits

/-- The bits without the sign. -/
def magnitude (x : Binary64) : UInt64 :=
  x.bits &&& 0x7FFFFFFFFFFFFFFF

/-- Whether the sign bit is set. -/
def signed (x : Binary64) : Bool :=
  x.bits >>> 63 == 1

/-- Not a number, of either sign and with any payload. -/
def isNaN (x : Binary64) : Bool :=
  0x7FF0000000000000 < x.magnitude

/-- One of the two infinities. -/
def isInfinite (x : Binary64) : Bool :=
  x.magnitude == 0x7FF0000000000000

/-- Neither infinite nor not a number. -/
def isFinite (x : Binary64) : Bool :=
  x.magnitude < 0x7FF0000000000000

/-- A not-a-number with its quiet bit set; every other number unchanged. -/
def quiet (x : Binary64) : Binary64 :=
  if x.isNaN then ⟨x.bits ||| 0x0008000000000000⟩ else x

/-- The answer of an operation that has no numeric result. -/
def indefinite : Binary64 :=
  ⟨0xFFF8000000000000⟩

/-- The positive quiet not-a-number. -/
def nan : Binary64 :=
  ⟨0x7FF8000000000000⟩

/-- Positive infinity. -/
def infinity : Binary64 :=
  ⟨0x7FF0000000000000⟩

/-- The other sign, for a not-a-number too. -/
def neg (x : Binary64) : Binary64 :=
  ⟨x.bits ^^^ 0x8000000000000000⟩

/-- The number without its sign. -/
def abs (x : Binary64) : Binary64 :=
  ⟨x.magnitude⟩

/-- What the bits of a number say. -/
inductive Parts
  /-- Not a number. -/
  | nan
  /-- An infinity of the given sign. -/
  | infinite (signed : Bool)
  /-- The number significand · 2 ^ exponent, of the given sign. -/
  | finite (signed : Bool) (significand : Nat) (exponent : Int)
deriving DecidableEq

/-- Takes a number apart. -/
def parts (x : Binary64) : Parts :=
  let exponent := (x.magnitude >>> 52).toNat
  let fraction := (x.bits &&& 0x000FFFFFFFFFFFFF).toNat
  if exponent = 2047 then
    if fraction = 0 then .infinite x.signed else .nan
  else if exponent = 0 then
    .finite x.signed fraction (-1074)
  else
    .finite x.signed (0x10000000000000 + fraction) ((exponent : Int) - 1075)

/-- The position of a number in the total order: negative numbers run
backwards, below the positive ones. -/
def rankKey (x : Binary64) : UInt64 :=
  if x.signed then ~~~x.bits else x.bits ||| 0x8000000000000000

end Bits

section Arithmetic

/-- The number as the machine computes with it. -/
def toFloat (x : Binary64) : Float :=
  Float.ofBits x.bits

/-- A computed number, with one representation for all that is not a number. -/
def ofFloat (f : Float) : Binary64 :=
  if f.isNaN then indefinite else ⟨f.toBits⟩

/-- An operation of two operands, with not-a-number passed through. -/
def lift (op : Float → Float → Float) (x y : Binary64) : Binary64 :=
  if x.isNaN then x.quiet
  else if y.isNaN then y.quiet
  else ofFloat (op x.toFloat y.toFloat)

/-- The nearest number to digits · 10 ^ exponent, ties to even. -/
def ofDecimal (digits : Nat) (exponent : Int) : Binary64 :=
  ⟨(Float.ofScientific digits (exponent < 0) exponent.natAbs).toBits⟩

/-- Numeric order: false if either side is not a number. -/
def less (x y : Binary64) : Bool :=
  decide (x.toFloat < y.toFloat)

/-- Numeric equality: the zeros are equal, a not-a-number equals nothing. -/
def equals (x y : Binary64) : Bool :=
  x.toFloat == y.toFloat

instance : Scalar Binary64 where
  add := lift (· + ·)
  sub := lift (· - ·)
  mul := lift (· * ·)
  div := lift (· / ·)
  neg := neg
  ofNat n := ofDecimal n 0
  identical := inferInstance
  less := less
  equals := equals
  rank x y := compare x.rankKey y.rankKey
  nearZero x := less x.abs (ofDecimal 1 (-8))
  tolerance := ofDecimal 1 (-8)
  bounded x := less x infinity

end Arithmetic

end Binary64

end Tether
