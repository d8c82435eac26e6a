import Tether.Touch.Tracker

/-!
# Calls to a tracker

Every call that changes a tracker, as data, and runs of such calls with one
listener.
-/

namespace Tether

/-- A call to a tracker. -/
inductive TrackerCall (α : Type)
  | register (cs : List (Constraint α))
  | unregister (cs : List (Constraint α))
  | beginTouches (points : List (TouchPoint α))
  | moveTouches (points : List (TouchPoint α))
  /-- Touches lifted. -/
  | endTouches (ids : List TouchId)
  /-- The input system gave touches up. -/
  | cancelTouches (ids : List TouchId)

namespace Tracker

variable {α : Type} [Scalar α]
variable {m : Type → Type} [Monad m] [MonadExceptOf Halt m]

/-- Carries out a call. -/
def perform (listener : Listener m α) (t : Tracker α) : TrackerCall α → m (Tracker α)
  | .register cs => t.register listener cs
  | .unregister cs => t.unregister listener cs
  | .beginTouches points => t.beginTouches listener points
  | .moveTouches points => t.moveTouches listener points
  | .endTouches ids => t.endTouches listener ids
  | .cancelTouches ids => t.endTouches listener ids

/-- Carries out calls one after another. -/
def run (listener : Listener m α) (t : Tracker α) (calls : List (TrackerCall α)) :
    m (Tracker α) :=
  calls.foldlM (perform listener) t

end Tracker

end Tether
