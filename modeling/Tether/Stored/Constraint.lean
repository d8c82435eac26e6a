import Tether.Constraint.Basic
import Tether.Stored.Shape

/-!
# Stored constraints

The stored forms of variables, expressions and constraints.  Handles,
identifiers and strengths are stored as bare numbers.  A term may leave out
whether it is sampled, and is not sampled then; every other field has to be
given.
-/

namespace Tether

open Stored

section Variables

/-- The name under which a property is stored. -/
def Property.storedName : Property → String
  | positionX => "PositionX"
  | positionY => "PositionY"
  | width => "Width"
  | height => "Height"
  | anchorX => "AnchorX"
  | anchorY => "AnchorY"
  | rotation => "Rotation"
  | scale => "Scale"
  | opacity => "Opacity"

instance : Stored Property where
  encode := encodeName Property.storedName
  decode := decodeName Property.storedName Property.all

instance : Stored EntityHandle where
  encode h := encode h.value
  decode j := (decode j).map EntityHandle.mk

instance : Stored TouchId where
  encode id := encode id.value
  decode j := (decode j).map TouchId.mk

/-- A target as a choice. -/
def Target.toChoice : Target → Choice
  | entity handle => ⟨"Entity", some (encode handle)⟩
  | touch id => ⟨"Touch", some (encode id)⟩
  | proxy index => ⟨"Proxy", some (encode index)⟩

/-- The target that a choice stands for. -/
def Target.ofChoice? (c : Choice) : Option Target :=
  if c.name = "Entity" then c.value?.map entity
  else if c.name = "Touch" then c.value?.map touch
  else if c.name = "Proxy" then c.value?.map proxy
  else none

instance : Stored Target where
  encode t := t.toChoice.toJson
  decode j := (Choice.ofJson? j).bind Target.ofChoice?

instance : Stored Variable where
  encode v := record [("target", encode v.target), ("property", encode v.property)]
  decode j := do
    let fields ← Fields.ofJson? ["target", "property"] j
    return ⟨← fields.required "target", ← fields.required "property"⟩

end Variables

section Expressions

variable {α : Type} [Stored α]

instance : Stored (Term α) where
  encode t :=
    record [("variable", encode t.unknown), ("coefficient", encode t.coefficient),
      ("is_constant", encode t.isConstant)]
  decode j := do
    let fields ← Fields.ofJson? ["variable", "coefficient", "is_constant"] j
    return ⟨← fields.required "variable", ← fields.required "coefficient",
      ← fields.optional "is_constant" false⟩

instance : Stored (Expression α) where
  encode e := record [("terms", encode e.terms), ("constant", encode e.constant)]
  decode j := do
    let fields ← Fields.ofJson? ["terms", "constant"] j
    return ⟨← fields.required "terms", ← fields.required "constant"⟩

end Expressions

section Constraints

/-- The name under which a relation is stored. -/
def Relation.storedName : Relation → String
  | equalTo => "EqualTo"
  | lessOrEqual => "LessOrEqual"
  | greaterOrEqual => "GreaterOrEqual"

instance : Stored Relation where
  encode := encodeName Relation.storedName
  decode := decodeName Relation.storedName Relation.all

variable {α : Type} [Stored α]

instance : Stored (Strength α) where
  encode s := encode s.value
  decode j := (decode j).map Strength.mk

instance : Stored (Constraint α) where
  encode c :=
    record [("name", encode c.name), ("expression", encode c.expression),
      ("relation", encode c.relation), ("strength", encode c.strength)]
  decode j := do
    let fields ← Fields.ofJson? ["name", "expression", "relation", "strength"] j
    return ⟨← fields.required "name", ← fields.required "expression",
      ← fields.required "relation", ← fields.required "strength"⟩

end Constraints

end Tether
