import Tether.Constraint.Grounding
import Tether.Solver.Basic
import Tether.Touch.Listener

/-!
# Tracking touches

A proxy constraint speaks of the touch at some place among the active ones.
The tracker keeps the active touches, oldest first, and the registered proxy
constraints, and sees to it that exactly those proxy constraints are applied
that fit: they refer to as many places as there are touches, all of them
taken.

Whenever the set of active touches changes, what is applied is retracted
first, while the variables of the old touches still exist, and what fits is
applied anew last, once the variables of the new touches do.  Sampled terms
are read at every application.
-/

namespace Tether

/-- Where an active touch is. -/
structure Position (α : Type) where
  /-- The horizontal position. -/
  x : α
  /-- The vertical position. -/
  y : α
deriving DecidableEq

/-- Active touches and proxy constraints. -/
structure Tracker (α : Type) where
  /-- The options of the tracker. -/
  settings : Settings α
  /-- The active touches, oldest first. -/
  touches : OrderedMap TouchId (Position α)
  /-- The registered proxy constraints, oldest first. -/
  registered : List (Constraint α)
  /-- The registered constraints that are applied, with their concrete
  forms. -/
  applied : OrderedMap (Constraint α) (Constraint α)

namespace Tracker

variable {α : Type} [Scalar α]

section Queries

/-- The tracker without touches and constraints. -/
def empty (settings : Settings α) : Tracker α :=
  ⟨settings, .empty, [], .empty⟩

/-- The active touches with their positions, oldest first. -/
def activeTouches (t : Tracker α) : List (TouchPoint α) :=
  t.touches.entries.map (fun e => ⟨e.1, e.2.x, e.2.y⟩)

/-- The concrete forms of what is applied. -/
def appliedConstraints (t : Tracker α) : List (Constraint α) :=
  t.applied.values

/-- Whether a proxy constraint is applied. -/
def isApplied (t : Tracker α) (c : Constraint α) : Bool :=
  t.applied.contains c

/-- Whether a proxy constraint is registered. -/
def isRegistered (t : Tracker α) (c : Constraint α) : Bool :=
  t.registered.any (fun r => r == c)

/-- Whether a constraint refers to as many places as there are touches, all
of them taken. -/
def fits (t : Tracker α) (c : Constraint α) : Bool :=
  let places := c.expression.proxies
  places.length == t.touches.size && places.all (fun i => i < t.touches.size)

/-- The variable that a proxy variable stands for. -/
def replacement (t : Tracker α) (v : Variable) : Variable :=
  match v.target.proxyIndex?.bind (fun i => t.touches.entries[i]?) with
  | some (id, _) => v.withTarget (.touch id)
  | none => v

end Queries

variable {m : Type → Type} [Monad m] [MonadExceptOf Halt m]

section Applying

/-- The concrete form of a constraint under the active touches. -/
def concreteForm (listener : Listener m α) (t : Tracker α) (c : Constraint α) :
    m (Constraint α) :=
  c.ground (fun v => pure (t.replacement v)) listener.sample

/-- The registered constraints that fit and are not applied. -/
def waiting (t : Tracker α) : List (Constraint α) :=
  t.registered.filter (fun c => !t.isApplied c && t.fits c)

/-- Retracts everything that is applied. -/
def retract (listener : Listener m α) (t : Tracker α) : m (Tracker α) := do
  if t.applied.isEmpty then
    return t
  else
    listener.removed t.appliedConstraints
    return { t with applied := .empty }

/-- Applies everything that fits. -/
def apply (listener : Listener m α) (t : Tracker α) : m (Tracker α) := do
  let activated ← t.waiting.mapM (fun c => do
    let concrete ← concreteForm listener t c
    return (c, concrete))
  if activated.isEmpty then
    return t
  else
    listener.added (activated.map (·.2))
    return { t with
      applied := activated.foldl (fun applied e => applied.insert e.1 e.2) t.applied }

end Applying

section Registering

/-- Registers a proxy constraint that is not registered. -/
def enroll (t : Tracker α) (c : Constraint α) : m (Tracker α) :=
  if t.isRegistered c then
    throw (Halt.breach (.registeredTwice c.name))
  else
    pure { t with registered := t.registered ++ [c] }

/-- Adds constraints to the layout.  Those without proxies are passed on;
proxy constraints are registered and applied as soon as they fit. -/
def register (listener : Listener m α) (t : Tracker α) (cs : List (Constraint α)) :
    m (Tracker α) := do
  let t ← (cs.filter (·.hasProxies)).foldlM enroll t
  let concrete := cs.filter (fun c => !c.hasProxies)
  if !concrete.isEmpty then
    listener.added concrete
  apply listener t

/-- Takes one constraint out of the layout, and says what its listener has to
remove. -/
def withdraw (progress : Tracker α × List (Constraint α)) (c : Constraint α) :
    m (Tracker α × List (Constraint α)) :=
  let (t, removed) := progress
  if !c.hasProxies then
    pure (t, removed ++ [c])
  else if !t.isRegistered c then
    throw (Halt.breach (.notRegistered c.name))
  else
    pure ({ t with
      registered := t.registered.eraseP (fun r => r == c)
      applied := t.applied.erase c },
      removed ++ (t.applied.get? c).toList)

/-- Removes constraints from the layout. -/
def unregister (listener : Listener m α) (t : Tracker α) (cs : List (Constraint α)) :
    m (Tracker α) := do
  let (t, removed) ← cs.foldlM withdraw (t, [])
  if !removed.isEmpty then
    listener.removed removed
  return t

end Registering

section Touching

/-- Tells a listener where a touch is. -/
def suggestPosition (listener : Listener m α) (p : TouchPoint α) : m Unit :=
  p.coordinates.forM (fun c => listener.edited c.1 (.suggested c.2))

/-- Starts tracking one touch, and creates its edit variables. -/
def beginTouch (listener : Listener m α) (t : Tracker α) (p : TouchPoint α) :
    m (Tracker α) := do
  if t.touches.contains p.id then
    throw (Halt.breach (.begunTwice p.id))
  else
    p.coordinates.forM (fun c => do
      listener.edited c.1 (.added t.settings.touchStrength)
      listener.edited c.1 (.suggested c.2))
    return { t with touches := t.touches.insert p.id ⟨p.x, p.y⟩ }

/-- Starts tracking touches. -/
def beginTouches (listener : Listener m α) (t : Tracker α) (points : List (TouchPoint α)) :
    m (Tracker α) := do
  if points.isEmpty then
    return t
  else
    let t ← retract listener t
    let t ← points.foldlM (beginTouch listener) t
    apply listener t

/-- Moves one touch, if it is active. -/
def moveTouch (listener : Listener m α) (t : Tracker α) (p : TouchPoint α) :
    m (Tracker α) := do
  if t.touches.contains p.id then
    suggestPosition listener p
    return { t with touches := t.touches.modify p.id (fun _ => ⟨p.x, p.y⟩) }
  else
    return t

/-- Moves touches; those that are not active are ignored. -/
def moveTouches (listener : Listener m α) (t : Tracker α) (points : List (TouchPoint α)) :
    m (Tracker α) :=
  points.foldlM (moveTouch listener) t

/-- Stops tracking one touch, and removes its edit variables. -/
def endTouch (listener : Listener m α) (t : Tracker α) (id : TouchId) :
    m (Tracker α) := do
  [Property.positionX, Property.positionY].forM (fun property =>
    listener.edited (.ofTouch id property) .removed)
  return { t with touches := t.touches.erase id }

/-- Stops tracking touches that lifted or were given up; those that are not
active when the call begins are ignored. -/
def endTouches (listener : Listener m α) (t : Tracker α) (ids : List TouchId) :
    m (Tracker α) := do
  let ended := ids.filter t.touches.contains
  if ended.isEmpty then
    return t
  else
    let t ← retract listener t
    let t ← ended.foldlM (endTouch listener) t
    apply listener t

end Touching

end Tracker

end Tether
