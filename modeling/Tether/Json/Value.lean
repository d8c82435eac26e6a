import Tether.Decimal.Reading

/-!
# JSON values

A value as it is written: numerals and quoted texts are kept in their
written form, members of an object in their order and with repetitions.
What a numeral or a quoted text stands for is decided where it is used, so
a part that nobody uses only has to be well formed.
-/

namespace Tether

/-- What stands between the quotes of a text. -/
structure Quoted where
  /-- The characters, with escapes as they are written. -/
  raw : List Char
deriving DecidableEq

/-- A JSON value. -/
inductive Json
  | null
  | bool (b : Bool)
  | number (n : Decimal.Numeral)
  | string (s : Quoted)
  | array (items : List Json)
  | object (members : List (Quoted × Json))

namespace Quoted

section Writing

/-- A hexadecimal digit. -/
def hexDigit (n : Nat) : Char :=
  if n < 10 then Char.ofNat ('0'.toNat + n) else Char.ofNat ('a'.toNat + (n - 10))

/-- A character as it is written between quotes. -/
def escape (c : Char) : List Char :=
  if c = '"' then ['\\', '"']
  else if c = '\\' then ['\\', '\\']
  else if c = '\x08' then ['\\', 'b']
  else if c = '\x0c' then ['\\', 'f']
  else if c = '\n' then ['\\', 'n']
  else if c = '\r' then ['\\', 'r']
  else if c = '\t' then ['\\', 't']
  else if c.toNat < 32 then
    ['\\', 'u', '0', '0', hexDigit (c.toNat / 16), hexDigit (c.toNat % 16)]
  else [c]

/-- A text as it is written. -/
def ofString (s : String) : Quoted :=
  ⟨s.toList.flatMap escape⟩

end Writing

section Reading

/-- The value of a hexadecimal digit. -/
def hexValue? (c : Char) : Option Nat :=
  if c.isDigit then some (c.toNat - '0'.toNat)
  else if 'a' ≤ c ∧ c ≤ 'f' then some (c.toNat - 'a'.toNat + 10)
  else if 'A' ≤ c ∧ c ≤ 'F' then some (c.toNat - 'A'.toNat + 10)
  else none

/-- The value of four hexadecimal digits. -/
def hexValue4? (a b c d : Char) : Option Nat := do
  let a ← hexValue? a
  let b ← hexValue? b
  let c ← hexValue? c
  let d ← hexValue? d
  return ((a * 16 + b) * 16 + c) * 16 + d

/-- The character that a letter stands for after a backslash. -/
def letter? (c : Char) : Option Char :=
  if c = '"' ∨ c = '\\' ∨ c = '/' then some c
  else if c = 'b' then some '\x08'
  else if c = 'f' then some '\x0c'
  else if c = 'n' then some '\n'
  else if c = 'r' then some '\r'
  else if c = 't' then some '\t'
  else none

/-- Whether a number is the first half of a pair that stands for one
character. -/
def isLeading (n : Nat) : Bool :=
  decide (0xD800 ≤ n ∧ n < 0xDC00)

/-- Whether a number is the second half of such a pair. -/
def isTrailing (n : Nat) : Bool :=
  decide (0xDC00 ≤ n ∧ n < 0xE000)

/-- The text that a written form stands for.  Half a pair stands for
nothing, and a form that holds one for no text. -/
def decode : List Char → Option (List Char)
  | [] => some []
  | '\\' :: 'u' :: a :: b :: c :: d :: '\\' :: 'u' :: a' :: b' :: c' :: d' :: rest => do
      let n ← hexValue4? a b c d
      if isLeading n then
        let n' ← hexValue4? a' b' c' d'
        if isTrailing n' then
          return Char.ofNat (0x10000 + (n - 0xD800) * 0x400 + (n' - 0xDC00)) :: (← decode rest)
        else none
      else if isTrailing n then none
      else
        return Char.ofNat n :: (← decode ('\\' :: 'u' :: a' :: b' :: c' :: d' :: rest))
  | '\\' :: 'u' :: a :: b :: c :: d :: rest => do
      let n ← hexValue4? a b c d
      if isLeading n || isTrailing n then none
      else return Char.ofNat n :: (← decode rest)
  | '\\' :: c :: rest => do
      let c ← letter? c
      return c :: (← decode rest)
  | ['\\'] => none
  | c :: rest => do
      return c :: (← decode rest)

/-- The text that quotes hold. -/
def toString? (q : Quoted) : Option String :=
  (decode q.raw).map String.ofList

end Reading

end Quoted

end Tether
