import Tether.Decimal.Numeral

/-!
# Reading numerals

A numeral is read as the double precision number nearest to its value, ties
to even.  All digits count, however many there are.

The power of ten just above the value is looked at first.  A value too large
for any number is infinite and a value too small for any is zero, without a
look at the digits, so an exponent of any size is read at once.
-/

namespace Tether
namespace Decimal

/-- The value of a decimal digit. -/
def digitValue (c : Char) : Nat :=
  c.toNat - '0'.toNat

/-- The value of a sequence of digits. -/
def digitsValue (digits : List Char) : Nat :=
  digits.foldl (fun n c => n * 10 + digitValue c) 0

/-- The power of ten above which every number is infinite. -/
def maxPlaces : Int :=
  309

/-- The power of ten below which every number is zero. -/
def minPlaces : Int :=
  -323

namespace Numeral

/-- The digits from the first one that is not zero. -/
def significant (n : Numeral) : List Char :=
  (n.whole ++ n.fraction).dropWhile (fun c => c = '0')

/-- The power of ten that the last digit stands for. -/
def lowest (n : Numeral) : Int :=
  n.exponent.getD 0 - n.fraction.length

/-- The least power of ten above the value. -/
def places (n : Numeral) : Int :=
  n.significant.length + n.lowest

/-- The number nearest to a numeral without its sign. -/
def magnitude (n : Numeral) : Binary64 :=
  if n.significant.isEmpty then Binary64.ofDecimal 0 0
  else if n.places < minPlaces then Binary64.ofDecimal 0 0
  else if maxPlaces < n.places then Binary64.infinity
  else Binary64.ofDecimal (digitsValue n.significant) n.lowest

/-- The number nearest to a numeral, infinite if the numeral is too large. -/
def nearest (n : Numeral) : Binary64 :=
  if n.negative then n.magnitude.neg else n.magnitude

/-- The number a numeral is read as; one that is too large is refused. -/
def toBinary64? (n : Numeral) : Option Binary64 :=
  if n.nearest.isInfinite then none else some n.nearest

/-- The natural number a numeral is read as, if it is written as one and is
at most the bound. -/
def toNat? (bound : Nat) (n : Numeral) : Option Nat :=
  if n.negative || !n.fraction.isEmpty || n.exponent.isSome then none
  else
    let value := digitsValue n.whole
    if value ≤ bound then some value else none

end Numeral

end Decimal
end Tether
