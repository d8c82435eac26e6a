import Tether.Constraint.Basic
import Tether.Halt

/-!
# Touches and listeners

A tracker of touches changes nothing itself.  Everything it wants done it
tells a listener: constraints to add and to remove, edit variables to add,
to move and to remove.  It also asks the listener for the current value of
a variable, when a sampled term is folded.

Listeners work in any monad, so they may keep a state of their own and may
halt.  A log is the plainest listener: it writes everything down.
-/

namespace Tether

/-- Where a touch is, as the input system reports it. -/
structure TouchPoint (α : Type) where
  /-- The touch. -/
  id : TouchId
  /-- Its horizontal position. -/
  x : α
  /-- Its vertical position. -/
  y : α
deriving DecidableEq

namespace TouchPoint

variable {α : Type}

/-- The variables of a touch with their positions. -/
def coordinates (p : TouchPoint α) : List (Variable × α) :=
  [(.ofTouch p.id .positionX, p.x), (.ofTouch p.id .positionY, p.y)]

end TouchPoint

/-- What happened to an edit variable. -/
inductive EditChange (α : Type)
  /-- It came to be, at a strength. -/
  | added (strength : Strength α)
  /-- It is to take a value. -/
  | suggested (value : α)
  /-- It is gone. -/
  | removed
deriving DecidableEq

/-- What a tracker talks to. -/
structure Listener (m : Type → Type) (α : Type) where
  /-- Constraints are to be added, in this order. -/
  added : List (Constraint α) → m Unit
  /-- Constraints are to be removed, in this order. -/
  removed : List (Constraint α) → m Unit
  /-- Something happened to an edit variable. -/
  edited : Variable → EditChange α → m Unit
  /-- The current value of a variable. -/
  sample : Variable → m α

/-- One thing that a tracker told a listener, or asked and was told. -/
inductive TouchEvent (α : Type)
  | added (cs : List (Constraint α))
  | removed (cs : List (Constraint α))
  | edited (v : Variable) (change : EditChange α)
  | sampled (v : Variable) (value : α)

namespace Listener

variable {α : Type} {m : Type → Type} [Monad m]

/-- Appends an event to a log. -/
def record (e : TouchEvent α) : StateT (List (TouchEvent α)) m Unit :=
  modify (· ++ [e])

/-- Passes everything on to a listener and writes it down afterwards. -/
def logged (listener : Listener m α) :
    Listener (StateT (List (TouchEvent α)) m) α where
  added cs := do
    listener.added cs
    record (.added cs)
  removed cs := do
    listener.removed cs
    record (.removed cs)
  edited v change := do
    listener.edited v change
    record (.edited v change)
  sample v := do
    let x ← listener.sample v
    record (.sampled v x)
    return x

/-- Does nothing, and answers from a table of values. -/
def ofValues (value : Variable → α) : Listener m α where
  added _ := pure ()
  removed _ := pure ()
  edited _ _ := pure ()
  sample v := pure (value v)

end Listener

end Tether
