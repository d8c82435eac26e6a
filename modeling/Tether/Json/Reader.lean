import Tether.Json.Value

/-!
# Reading JSON

Two machines, each fed one item at a time.  The first takes characters and
gives tokens; the second takes tokens and builds the value, with the open
arrays and objects on a stack.  A machine that has no move for an item
refuses the text.
-/

namespace Tether

section Numerals

/-- Splits off the digits at the front. -/
def spanDigits (cs : List Char) : List Char × List Char :=
  (cs.takeWhile Char.isDigit, cs.dropWhile Char.isDigit)

/-- The digits of a whole number: at least one, and no zero in front. -/
def isWhole : List Char → Bool
  | [] => false
  | [_] => true
  | c :: _ => c ≠ '0'

/-- Reads the exponent of a numeral that ends with it. -/
def readExponent? : List Char → Option (Option Int)
  | [] => some none
  | e :: cs =>
      if e ≠ 'e' ∧ e ≠ 'E' then none
      else
        let (negative, cs) :=
          match cs with
          | '-' :: rest => (true, rest)
          | '+' :: rest => (false, rest)
          | _ => (false, cs)
        if cs.isEmpty || !cs.all Char.isDigit then none
        else
          let size : Int := Decimal.digitsValue cs
          some (some (if negative then -size else size))

/-- Reads the digits after the point, if there is one. -/
def readFraction? : List Char → Option (List Char × List Char)
  | '.' :: cs =>
      let (digits, rest) := spanDigits cs
      if digits.isEmpty then none else some (digits, rest)
  | cs => some ([], cs)

/-- Reads a numeral. -/
def Decimal.Numeral.ofChars? (cs : List Char) : Option Decimal.Numeral := do
  let (negative, cs) :=
    match cs with
    | '-' :: rest => (true, rest)
    | _ => (false, cs)
  let (whole, cs) := spanDigits cs
  if !isWhole whole then none
  else
    let (fraction, cs) ← readFraction? cs
    let exponent ← readExponent? cs
    return ⟨negative, whole, fraction, exponent⟩

end Numerals

namespace Json

section Tokens

/-- What a text is made of. -/
inductive Token
  | openArray
  | closeArray
  | openObject
  | closeObject
  | colon
  | comma
  /-- A value without parts. -/
  | scalar (v : Json)
  /-- A text between quotes. -/
  | string (q : Quoted)

/-- Where in a token the next character stands; characters so far are kept in
reverse. -/
inductive Mode
  /-- Between tokens. -/
  | between
  /-- In a word. -/
  | word (seen : List Char)
  /-- In a numeral. -/
  | numeral (seen : List Char)
  /-- Between quotes. -/
  | quoted (seen : List Char)
  /-- Behind a backslash. -/
  | escape (seen : List Char)
  /-- Behind a backslash and a u, with so many hexadecimal digits to come. -/
  | hex (digits : Nat) (seen : List Char)

/-- Whether a character may stand between tokens. -/
def isBlank (c : Char) : Bool :=
  c = ' ' ∨ c = '\n' ∨ c = '\t' ∨ c = '\r'

/-- Whether a character may stand in a numeral. -/
def inNumeral (c : Char) : Bool :=
  c.isDigit || c = '-' || c = '+' || c = '.' || c = 'e' || c = 'E'

/-- The value a word stands for. -/
def wordToken? (word : List Char) : Option Token :=
  if word = ['n', 'u', 'l', 'l'] then some (.scalar .null)
  else if word = ['t', 'r', 'u', 'e'] then some (.scalar (.bool true))
  else if word = ['f', 'a', 'l', 's', 'e'] then some (.scalar (.bool false))
  else none

/-- The token of a single character. -/
def punctuation? (c : Char) : Option Token :=
  if c = '[' then some .openArray
  else if c = ']' then some .closeArray
  else if c = '\x7b' then some .openObject
  else if c = '\x7d' then some .closeObject
  else if c = ':' then some .colon
  else if c = ',' then some .comma
  else none

/-- Takes a character between tokens. -/
def beginToken (c : Char) : Option (List Token × Mode) :=
  if isBlank c then some ([], .between)
  else if c = '"' then some ([], .quoted [])
  else if c.isDigit || c = '-' then some ([], .numeral [c])
  else if c.isLower then some ([], .word [c])
  else (punctuation? c).map (fun t => ([t], .between))

/-- The token that a mode has come to where a token may end, if it can. -/
def finish? : Mode → Option (List Token)
  | .between => some []
  | .word seen => (wordToken? seen.reverse).map (fun t => [t])
  | .numeral seen =>
      (Decimal.Numeral.ofChars? seen.reverse).map (fun n => [.scalar (.number n)])
  | _ => none

/-- Ends the token at hand and takes a character after it. -/
def endBefore (mode : Mode) (c : Char) : Option (List Token × Mode) := do
  let ended ← finish? mode
  let (begun, mode) ← beginToken c
  return (ended ++ begun, mode)

/-- Takes a character. -/
def takeChar (mode : Mode) (c : Char) : Option (List Token × Mode) :=
  match mode with
  | .between => beginToken c
  | .word seen => if c.isLower then some ([], .word (c :: seen)) else endBefore mode c
  | .numeral seen =>
      if inNumeral c then some ([], .numeral (c :: seen)) else endBefore mode c
  | .quoted seen =>
      if c = '"' then some ([.string ⟨seen.reverse⟩], .between)
      else if c = '\\' then some ([], .escape (c :: seen))
      else if c.toNat < 32 then none
      else some ([], .quoted (c :: seen))
  | .escape seen =>
      if c = 'u' then some ([], .hex 4 (c :: seen))
      else if (Quoted.letter? c).isSome then some ([], .quoted (c :: seen))
      else none
  | .hex digits seen =>
      if (Quoted.hexValue? c).isNone then none
      else if digits ≤ 1 then some ([], .quoted (c :: seen))
      else some ([], .hex (digits - 1) (c :: seen))

/-- Takes a character, and keeps the tokens so far in reverse. -/
def scanChar (scan : List Token × Mode) (c : Char) : Option (List Token × Mode) := do
  let (ended, mode) ← takeChar scan.2 c
  return (ended.reverse ++ scan.1, mode)

/-- The tokens of a text. -/
def tokens? (cs : List Char) : Option (List Token) := do
  let (seen, mode) ← cs.foldlM scanChar ([], .between)
  let last ← finish? mode
  return seen.reverse ++ last

end Tokens

section Values

/-- An array or object that is still open, with its last part to come; parts
are kept in reverse. -/
inductive Frame
  | array (items : List Json)
  | object (members : List (Quoted × Json)) (key : Quoted)

/-- What may come next. -/
inductive Reading
  /-- A value. -/
  | value (frames : List Frame)
  /-- The first item of an array, or its end. -/
  | firstItem (frames : List Frame)
  /-- A comma or the end of an array. -/
  | nextItem (items : List Json) (frames : List Frame)
  /-- The first key of an object, or its end. -/
  | firstKey (frames : List Frame)
  /-- A key. -/
  | key (members : List (Quoted × Json)) (frames : List Frame)
  /-- The colon after a key. -/
  | colon (members : List (Quoted × Json)) (key : Quoted) (frames : List Frame)
  /-- A comma or the end of an object. -/
  | nextKey (members : List (Quoted × Json)) (frames : List Frame)
  /-- Nothing: the value is complete. -/
  | done (v : Json)

/-- Puts a complete value in its place. -/
def Reading.complete (v : Json) : List Frame → Reading
  | [] => .done v
  | .array items :: frames => .nextItem (v :: items) frames
  | .object members name :: frames => .nextKey ((name, v) :: members) frames

/-- Takes the first token of a value. -/
def Reading.start (frames : List Frame) : Token → Option Reading
  | .openArray => some (.firstItem frames)
  | .openObject => some (.firstKey frames)
  | .scalar v => some (.complete v frames)
  | .string q => some (.complete (.string q) frames)
  | _ => none

/-- Takes a token. -/
def Reading.take : Reading → Token → Option Reading
  | .value frames, t => start frames t
  | .firstItem frames, .closeArray => some (.complete (.array []) frames)
  | .firstItem frames, t => start (.array [] :: frames) t
  | .nextItem items frames, .comma => some (.value (.array items :: frames))
  | .nextItem items frames, .closeArray =>
      some (.complete (.array items.reverse) frames)
  | .firstKey frames, .closeObject => some (.complete (.object []) frames)
  | .firstKey frames, .string q => some (.colon [] q frames)
  | .key members frames, .string q => some (.colon members q frames)
  | .colon members name frames, .colon => some (.value (.object members name :: frames))
  | .nextKey members frames, .comma => some (.key members frames)
  | .nextKey members frames, .closeObject =>
      some (.complete (.object members.reverse) frames)
  | _, _ => none

/-- The value that a text stands for. -/
def read? (s : String) : Option Json := do
  let tokens ← tokens? s.toList
  match ← tokens.foldlM Reading.take (.value []) with
  | .done v => some v
  | _ => none

end Values

end Json
end Tether
