/-!
# Variables

The unknowns of a layout.  A variable is a property of a target; a target
is an entity, a touch, or a proxy that stands for the touch at some place
among the active ones.

Variables are ordered by target, then by property.  Entities come before
touches and touches before proxies; targets of one kind go by number.
-/

namespace Tether

section Properties

/-- A layout attribute of an entity or a touch. -/
inductive Property
  | positionX
  | positionY
  | width
  | height
  | anchorX
  | anchorY
  | rotation
  | scale
  | opacity
deriving DecidableEq, Hashable, Inhabited

namespace Property

/-- All properties, in ordinal order. -/
def all : List Property :=
  [positionX, positionY, width, height, anchorX, anchorY, rotation, scale, opacity]

/-- The number by which a property travels. -/
def ordinal (p : Property) : Nat :=
  p.ctorIdx

/-- The property of a number. -/
def ofOrdinal? (n : Nat) : Option Property :=
  all[n]?

/-- The name of a property inside the name of a variable. -/
def name : Property → String
  | positionX => "position.x"
  | positionY => "position.y"
  | width => "width"
  | height => "height"
  | anchorX => "anchor.x"
  | anchorY => "anchor.y"
  | rotation => "rotation"
  | scale => "scale"
  | opacity => "opacity"

theorem ofOrdinal?_ordinal (p : Property) :
    ofOrdinal? p.ordinal = some p := by
  cases p <;> rfl

end Property

end Properties

section Targets

/-- Handle of an entity whose properties are laid out. -/
structure EntityHandle where
  /-- The number of the entity. -/
  value : UInt64
deriving DecidableEq, Hashable, Inhabited

/-- Identifier of a touch, as the input system reports it. -/
structure TouchId where
  /-- The number of the touch. -/
  value : UInt64
deriving DecidableEq, Hashable, Inhabited

/-- What a variable belongs to. -/
inductive Target
  /-- An entity of the layout. -/
  | entity (handle : EntityHandle)
  /-- A touch. -/
  | touch (id : TouchId)
  /-- The touch at this place among the active touches, oldest first. -/
  | proxy (index : UInt32)
deriving DecidableEq, Hashable, Inhabited

namespace Target

/-- Whether the target stands for a touch that is not yet known. -/
def isProxy : Target → Bool
  | proxy _ => true
  | _ => false

/-- The place a proxy stands for. -/
def proxyIndex? : Target → Option Nat
  | proxy index => some index.toNat
  | _ => none

/-- The place of a kind of target in the order of targets. -/
def tier : Target → Nat
  | entity _ => 0
  | touch _ => 1
  | proxy _ => 2

/-- The number of a target within its kind. -/
def number : Target → Nat
  | entity handle => handle.value.toNat
  | touch id => id.value.toNat
  | proxy index => index.toNat

instance : Ord Target where
  compare a b := (compare a.tier b.tier).then (compare a.number b.number)

/-- The text of a target: its kind, a colon and its number. -/
def text (t : Target) : String :=
  let kind :=
    match t with
    | entity _ => "entity:"
    | touch _ => "touch:"
    | proxy _ => "proxy:"
  kind ++ toString t.number

end Target

end Targets

section Variables

/-- A scalar unknown: a property of a target. -/
structure Variable where
  /-- What the unknown belongs to. -/
  target : Target
  /-- Which attribute of the target it is. -/
  property : Property
deriving DecidableEq, Hashable, Inhabited

namespace Variable

/-- Whether the variable belongs to a proxy. -/
def isProxy (v : Variable) : Bool :=
  v.target.isProxy

/-- The same property of another target. -/
def withTarget (v : Variable) (target : Target) : Variable :=
  { v with target }

/-- A property of a touch. -/
def ofTouch (id : TouchId) (property : Property) : Variable :=
  ⟨.touch id, property⟩

instance : Ord Variable where
  compare a b :=
    (compare a.target b.target).then (compare a.property.ordinal b.property.ordinal)

/-- The text of a variable: its target, a point and its property. -/
def text (v : Variable) : String :=
  v.target.text ++ "." ++ v.property.name

end Variable

end Variables

end Tether
