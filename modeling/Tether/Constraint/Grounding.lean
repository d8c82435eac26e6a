import Tether.Constraint.Basic
import Tether.Halt

/-!
# Grounding

Makes a proxy constraint concrete.  Every proxy variable is replaced; a
term marked as constant is dropped, and its coefficient times the current
value of its (already replaced) variable is added to the constant instead.

The two callbacks may have effects, so they run in any monad that can halt,
in the order of the terms: for each term first the replacement, if the term
refers to a proxy, then the sample, if the term is constant.

The name of the result is the old name, an at sign, and the targets that
replaced proxies, each once, in order of first use.
-/

namespace Tether

/-- A concrete expression in the making. -/
structure Grounded (α : Type) where
  /-- What has been built so far. -/
  expression : Expression α
  /-- The targets that replaced proxies so far, in order of first use. -/
  targets : List Target

namespace Grounded

variable {α : Type}

/-- Records that a target replaced a proxy. -/
def noteTarget (g : Grounded α) (target : Target) : Grounded α :=
  if g.targets.contains target then g
  else { g with targets := g.targets ++ [target] }

/-- Adds to the constant. -/
def addConstant [Scalar α] (g : Grounded α) (x : α) : Grounded α :=
  { g with expression := { g.expression with constant := g.expression.constant + x } }

/-- Appends a symbolic term. -/
def push (g : Grounded α) (t : Term α) : Grounded α :=
  { g with expression := g.expression.push t }

end Grounded

section Grounding

variable {α : Type} [Scalar α]
variable {m : Type → Type} [Monad m] [MonadExceptOf Halt m]

/-- The concrete variable of a term, with its target noted if it replaced a
proxy. -/
def Grounded.concrete (replacement : Variable → m Variable)
    (g : Grounded α) (v : Variable) : m (Grounded α × Variable) :=
  if v.isProxy then do
    let w ← replacement v
    if w.isProxy then
      throw (Halt.breach (.proxyForProxy v w))
    else
      pure (g.noteTarget w.target, w)
  else
    pure (g, v)

/-- Adds one term to a concrete expression in the making. -/
def Grounded.add (replacement : Variable → m Variable) (sample : Variable → m α)
    (g : Grounded α) (t : Term α) : m (Grounded α) := do
  let (g, v) ← g.concrete replacement t.unknown
  if t.isConstant then
    let x ← sample v
    pure (g.addConstant (t.coefficient * x))
  else
    pure (g.push (.symbolic v t.coefficient))

/-- The concrete form of a constraint. -/
def Constraint.ground (replacement : Variable → m Variable) (sample : Variable → m α)
    (c : Constraint α) : m (Constraint α) := do
  let start : Grounded α := ⟨.ofConstant c.expression.constant, []⟩
  let g ← c.expression.terms.foldlM (Grounded.add replacement sample) start
  pure { c with
    name := c.name ++ "@" ++ ",".intercalate (g.targets.map Target.text)
    expression := g.expression }

end Grounding

end Tether
