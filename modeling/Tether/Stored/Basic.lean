import Tether.Decimal.Reading
import Tether.Json.Printer
import Tether.Json.Reader

/-!
# Stored values

Types whose values are written as JSON and read back.  Writing always
succeeds.  Reading refuses a value of the wrong shape, a number out of range
and a text that stands for nothing.

A number that is infinite or not a number has no numeral.  It is written as
null, and null is not read as a number.
-/

namespace Tether

/-- Types whose values are stored as JSON. -/
class Stored (β : Type) where
  /-- The stored form of a value. -/
  encode : β → Json
  /-- The value of a stored form. -/
  decode : Json → Option β

namespace Stored

section Texts

variable {β : Type} [Stored β]

/-- Writes a value as JSON text. -/
def write (x : β) : String :=
  (encode x).text

/-- Reads a value from JSON text. -/
def read? (s : String) : Option β :=
  (Json.read? s).bind decode

end Texts

section Simple

instance : Stored Bool where
  encode b := .bool b
  decode
    | .bool b => some b
    | _ => none

instance : Stored String where
  encode s := .string (.ofString s)
  decode
    | .string q => q.toString?
    | _ => none

/-- Reads a natural number up to a bound. -/
def decodeNat (bound : Nat) : Json → Option Nat
  | .number n => n.toNat? bound
  | _ => none

/-- Writes a natural number. -/
def encodeNat (n : Nat) : Json :=
  .number (.ofNat n)

instance : Stored UInt64 where
  encode n := encodeNat n.toNat
  decode j := (decodeNat (UInt64.size - 1) j).map UInt64.ofNat

instance : Stored UInt32 where
  encode n := encodeNat n.toNat
  decode j := (decodeNat (UInt32.size - 1) j).map UInt32.ofNat

instance : Stored Binary64 where
  encode x :=
    match Decimal.Style.compact.numeral? x with
    | some n => .number n
    | none => .null
  decode
    | .number n => n.toBinary64?
    | _ => none

end Simple

section Lists

variable {β : Type} [Stored β]

/-- Reads every item of a list. -/
def decodeItems : List Json → Option (List β)
  | [] => some []
  | j :: rest => do
      let x ← decode j
      let xs ← decodeItems rest
      return x :: xs

instance : Stored (List β) where
  encode xs := .array (xs.map encode)
  decode
    | .array items => decodeItems items
    | _ => none

end Lists

end Stored

end Tether
