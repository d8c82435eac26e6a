import Tether.Scalar.Basic
import Tether.Variable

/-!
# Linear expressions

A sum of terms plus a constant.  Terms are appended and never merged, so an
expression remembers how it was written; only its value forgets the order.

A term marked as constant is not kept as an unknown: when its constraint is
made concrete, the value of its variable is read once and added to the
constant.
-/

namespace Tether

/-- A coefficient applied to a variable. -/
structure Term (α : Type) where
  /-- The unknown. -/
  unknown : Variable
  /-- What the unknown is multiplied by. -/
  coefficient : α
  /-- Whether the unknown is read once instead of being solved for. -/
  isConstant : Bool
deriving DecidableEq

/-- A linear combination of variables plus a constant. -/
structure Expression (α : Type) where
  /-- The terms, in the order in which they were written. -/
  terms : List (Term α)
  /-- What is added to the terms. -/
  constant : α
deriving DecidableEq

namespace Term

variable {α : Type}

/-- A term that is solved for. -/
def symbolic (v : Variable) (coefficient : α) : Term α :=
  ⟨v, coefficient, false⟩

/-- A term that is read once. -/
def sampled (v : Variable) (coefficient : α) : Term α :=
  ⟨v, coefficient, true⟩

end Term

namespace Expression

variable {α : Type}

/-- An expression without terms. -/
def ofConstant (value : α) : Expression α :=
  ⟨[], value⟩

/-- Appends a term. -/
def push (e : Expression α) (t : Term α) : Expression α :=
  { e with terms := e.terms ++ [t] }

section Building

variable [Scalar α]

/-- An expression of one term. -/
def ofTerm (t : Term α) : Expression α :=
  ⟨[t], Scalar.zero⟩

/-- An expression of one variable. -/
def ofVariable (v : Variable) : Expression α :=
  ofTerm (.symbolic v Scalar.one)

/-- Multiplies every coefficient and the constant. -/
def scale (e : Expression α) (factor : α) : Expression α :=
  ⟨e.terms.map (fun t => { t with coefficient := t.coefficient * factor }),
    e.constant * factor⟩

instance : Add (Expression α) where
  add a b := ⟨a.terms ++ b.terms, a.constant + b.constant⟩

instance : Neg (Expression α) where
  neg e := e.scale (-Scalar.one)

instance : Sub (Expression α) where
  sub a b := a + -b

end Building

section Proxies

/-- Whether any term refers to a proxy. -/
def hasProxies (e : Expression α) : Bool :=
  e.terms.any (·.unknown.isProxy)

/-- Inserts a number into an ascending list without repeating it. -/
def insertIndex (n : Nat) : List Nat → List Nat
  | [] => [n]
  | m :: rest =>
      if n < m then n :: m :: rest
      else if n = m then m :: rest
      else m :: insertIndex n rest

/-- The places of the proxies that the terms refer to, ascending. -/
def proxies (e : Expression α) : List Nat :=
  (e.terms.filterMap (·.unknown.target.proxyIndex?)).foldr insertIndex []

end Proxies

section Value

variable [Scalar α]

/-- The sum of the terms when each variable has the given value. -/
def sumTerms (value : Variable → α) : List (Term α) → α
  | [] => Scalar.zero
  | t :: rest => t.coefficient * value t.unknown + sumTerms value rest

/-- The value of an expression when each variable has the given value. -/
def eval (value : Variable → α) (e : Expression α) : α :=
  sumTerms value e.terms + e.constant

end Value

end Expression

end Tether
