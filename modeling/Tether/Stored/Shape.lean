import Tether.Stored.Basic

/-!
# Records and choices

Two shapes that stored values are made of.

* A record is written as an object with its fields in order.  It is read
  from an object in any order, or from an array that gives the fields in
  order and may leave the last ones out.  Members of an object that are no
  fields are ignored; a field given twice is refused.
* A choice is written as its name if it carries nothing, and as an object
  with one member if it carries a value.  A choice that carries nothing is
  also read from an object whose member is null.
-/

namespace Tether
namespace Stored

section Records

/-- The stored form of a record. -/
def record (fields : List (String × Json)) : Json :=
  .object (fields.map (fun f => (.ofString f.1, f.2)))

/-- The fields of a record that are given, with their stored forms. -/
structure Fields where
  /-- Names and stored forms. -/
  given : List (String × Json)

namespace Fields

/-- The fields among the members of an object. -/
def ofMembers? (names : List String) : List (Quoted × Json) → Option (List (String × Json))
  | [] => some []
  | (key, j) :: rest => do
      let name ← key.toString?
      let others ← ofMembers? names rest
      if !names.contains name then some others
      else if others.any (fun f => f.1 == name) then none
      else some ((name, j) :: others)

/-- The fields that the items of an array stand for. -/
def ofItems? : List String → List Json → Option (List (String × Json))
  | _, [] => some []
  | [], _ :: _ => none
  | name :: names, j :: rest => do
      let others ← ofItems? names rest
      return (name, j) :: others

/-- The fields that a stored form gives. -/
def ofJson? (names : List String) : Json → Option Fields
  | .object members => (ofMembers? names members).map Fields.mk
  | .array items => (ofItems? names items).map Fields.mk
  | _ => none

/-- The stored form of a field. -/
def get? (fields : Fields) (name : String) : Option Json :=
  fields.given.lookup name

variable {β : Type} [Stored β]

/-- The value of a field that has to be given. -/
def required (fields : Fields) (name : String) : Option β :=
  (fields.get? name).bind decode

/-- The value of a field that may be left out. -/
def optional (fields : Fields) (name : String) (default : β) : Option β :=
  match fields.get? name with
  | none => some default
  | some j => decode j

end Fields

end Records

section Choices

/-- The name of a choice and what it carries. -/
structure Choice where
  /-- The name. -/
  name : String
  /-- The stored form of what the choice carries. -/
  carried : Option Json

namespace Choice

/-- The stored form of a choice. -/
def toJson (c : Choice) : Json :=
  match c.carried with
  | none => .string (.ofString c.name)
  | some j => record [(c.name, j)]

/-- The choice that a stored form stands for. -/
def ofJson? : Json → Option Choice
  | .string q => q.toString?.map (fun name => ⟨name, none⟩)
  | .object [(key, j)] => key.toString?.map (fun name => ⟨name, some j⟩)
  | _ => none

/-- Whether nothing is carried. -/
def isBare (c : Choice) : Bool :=
  match c.carried with
  | none => true
  | some .null => true
  | some _ => false

/-- The value that is carried. -/
def value? {β : Type} [Stored β] (c : Choice) : Option β :=
  c.carried.bind decode

end Choice

variable {β : Type}

/-- Writes a choice that carries nothing. -/
def encodeName (nameOf : β → String) (x : β) : Json :=
  (Choice.mk (nameOf x) none).toJson

/-- Reads a choice among values that carry nothing. -/
def decodeName (nameOf : β → String) (all : List β) (j : Json) : Option β := do
  let c ← Choice.ofJson? j
  if c.isBare then all.find? (fun x => nameOf x == c.name)
  else none

end Choices

end Stored
end Tether
