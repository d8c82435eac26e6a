import Tether.Decimal.Shortest
import Tether.Scalar.Binary64

/-!
# Numerals

A numeral is a decimal number as it is written: a sign, digits before and
after the point, and an exponent.  A style fixes how a number becomes a
numeral; which digits it gets is decided before, by the shortest decimal
that reads back.
-/

namespace Tether
namespace Decimal

/-- A decimal number as it is written. -/
structure Numeral where
  /-- Whether a minus sign stands in front. -/
  negative : Bool
  /-- The digits before the point. -/
  whole : List Char
  /-- The digits after the point; none means that there is no point. -/
  fraction : List Char
  /-- The power of ten behind the digits, if one is written. -/
  exponent : Option Int
deriving DecidableEq

namespace Numeral

/-- The characters of an exponent, which always has a sign. -/
def exponentChars (e : Int) : List Char :=
  'e' :: (if e < 0 then '-' else '+') :: Nat.toDigits 10 e.natAbs

/-- The characters of a numeral. -/
def chars (n : Numeral) : List Char :=
  (if n.negative then ['-'] else [])
    ++ n.whole
    ++ (if n.fraction.isEmpty then [] else '.' :: n.fraction)
    ++ (match n.exponent with
        | none => []
        | some e => exponentChars e)

/-- The text of a numeral. -/
def text (n : Numeral) : String :=
  String.ofList n.chars

/-- The numeral of a natural number. -/
def ofNat (n : Nat) : Numeral :=
  ⟨false, Nat.toDigits 10 n, [], none⟩

end Numeral

/-- How numbers are written. -/
structure Style where
  /-- Which of two equally near decimals is written. -/
  tie : Tie
  /-- Whether a number whose first digit stands for this power of ten is
  written without an exponent. -/
  positional : Int → Bool
  /-- Whether a whole number is written with a point and a zero. -/
  pointZero : Bool

namespace Style

/-- Always positional, and no point unless it is needed. -/
def plain : Style where
  tie := .up
  positional _ := true
  pointZero := false

/-- Positional from a hundred-thousandth up to below ten to the sixteenth;
a whole number keeps a point. -/
def compact : Style where
  tie := .toEven
  positional leading := decide (-5 ≤ leading ∧ leading < 16)
  pointZero := true

/-- What is written after the point of a whole number. -/
def wholeFraction (style : Style) : List Char :=
  if style.pointZero then ['0'] else []

/-- Lays out the digits of a number that is not zero. -/
def layOut (style : Style) (negative : Bool) (d : Scaled) : Numeral :=
  let digits := Nat.toDigits 10 d.digits
  let places : Int := digits.length + d.exponent
  if style.positional (places - 1) then
    if 0 ≤ d.exponent then
      ⟨negative, digits ++ List.replicate d.exponent.toNat '0',
        style.wholeFraction, none⟩
    else if 0 < places then
      ⟨negative, digits.take places.toNat, digits.drop places.toNat, none⟩
    else
      ⟨negative, ['0'], List.replicate (-places).toNat '0' ++ digits, none⟩
  else
    ⟨negative, digits.take 1, digits.drop 1, some (places - 1)⟩

/-- The numeral of a number that is neither infinite nor not a number. -/
def numeral? (style : Style) (x : Binary64) : Option Numeral :=
  match x.parts with
  | .finite signed significand exponent =>
      if significand = 0 then
        some ⟨signed, ['0'], style.wholeFraction, none⟩
      else
        some (style.layOut signed (shortest style.tie significand exponent))
  | _ => none

/-- The text of any number. -/
def text (style : Style) (x : Binary64) : String :=
  match style.numeral? x with
  | some n => n.text
  | none =>
      if x.isNaN then "NaN" else if x.signed then "-inf" else "inf"

end Style

end Decimal
end Tether
