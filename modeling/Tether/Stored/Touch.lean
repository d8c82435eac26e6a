import Tether.Solver.Flush
import Tether.Stored.Constraint
import Tether.Touch.Listener

/-!
# Stored settings and events

The stored forms of settings, touch points, outcomes of a flush and changes
of an edit variable.  Settings may leave out any field, which has its
standard value then.  A stored touch strength is taken as it is, not cut to
the range of strengths.
-/

namespace Tether

open Stored

section Settings

variable {α : Type} [Scalar α] [Stored α]

instance : Stored (Settings α) where
  encode s :=
    record [("touch_strength", encode s.touchStrength),
      ("collect_unused_variables", encode s.collectUnused)]
  decode j := do
    let fields ← Fields.ofJson? ["touch_strength", "collect_unused_variables"] j
    let standard : Settings α := .standard
    return ⟨← fields.optional "touch_strength" standard.touchStrength,
      ← fields.optional "collect_unused_variables" standard.collectUnused⟩

end Settings

section Events

/-- All outcomes of a flush. -/
def FlushOutcome.all : List FlushOutcome :=
  [noUpdates, updated]

/-- The name under which the outcome of a flush is stored. -/
def FlushOutcome.storedName : FlushOutcome → String
  | noUpdates => "NoUpdates"
  | updated => "Updated"

instance : Stored FlushOutcome where
  encode := encodeName FlushOutcome.storedName
  decode := decodeName FlushOutcome.storedName FlushOutcome.all

variable {α : Type} [Stored α]

instance : Stored (TouchPoint α) where
  encode p := record [("id", encode p.id), ("x", encode p.x), ("y", encode p.y)]
  decode j := do
    let fields ← Fields.ofJson? ["id", "x", "y"] j
    return ⟨← fields.required "id", ← fields.required "x", ← fields.required "y"⟩

/-- A change of an edit variable as a choice. -/
def EditChange.toChoice : EditChange α → Choice
  | added strength => ⟨"Added", some (encode strength)⟩
  | suggested x => ⟨"Suggested", some (encode x)⟩
  | removed => ⟨"Removed", none⟩

/-- The change of an edit variable that a choice stands for. -/
def EditChange.ofChoice? (c : Choice) : Option (EditChange α) :=
  if c.name = "Added" then c.value?.map added
  else if c.name = "Suggested" then c.value?.map suggested
  else if c.name = "Removed" ∧ c.isBare then some removed
  else none

instance : Stored (EditChange α) where
  encode change := change.toChoice.toJson
  decode j := (Choice.ofJson? j).bind EditChange.ofChoice?

end Events

end Tether
