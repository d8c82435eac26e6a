import Tether.Json.Value

/-!
# Writing JSON

The compact form: no blanks, items and members in their order.
-/

namespace Tether
namespace Json

/-- The characters of a written text with its quotes. -/
def quote (q : Quoted) : List Char :=
  '"' :: q.raw ++ ['"']

mutual

/-- The characters of a value. -/
def chars : Json → List Char
  | null => ['n', 'u', 'l', 'l']
  | bool true => ['t', 'r', 'u', 'e']
  | bool false => ['f', 'a', 'l', 's', 'e']
  | number n => n.chars
  | string q => quote q
  | array [] => ['[', ']']
  | array (item :: rest) => '[' :: item.chars ++ itemChars rest ++ [']']
  | object [] => ['\x7b', '\x7d']
  | object ((key, value) :: rest) =>
      '\x7b' :: quote key ++ ':' :: value.chars ++ memberChars rest ++ ['\x7d']

/-- The characters of the items after the first, each behind a comma. -/
def itemChars : List Json → List Char
  | [] => []
  | item :: rest => ',' :: item.chars ++ itemChars rest

/-- The characters of the members after the first, each behind a comma. -/
def memberChars : List (Quoted × Json) → List Char
  | [] => []
  | (key, value) :: rest =>
      ',' :: quote key ++ ':' :: value.chars ++ memberChars rest

end

/-- The text of a value. -/
def text (j : Json) : String :=
  String.ofList j.chars

end Json
end Tether
