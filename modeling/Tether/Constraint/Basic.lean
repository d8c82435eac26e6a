import Tether.Expression

/-!
# Constraints

A constraint relates a linear expression to zero and says how much that
matters.  Strengths at or above the required one are absolute; weaker
constraints are kept as well as the stronger ones allow.

The meaning of a constraint is given twice: whether an assignment satisfies
it, and by how much an assignment violates it.
-/

namespace Tether

section Strengths

/-- How much a constraint matters. -/
structure Strength (α : Type) where
  /-- The weight of one unit of violation. -/
  value : α
deriving DecidableEq

namespace Strength

variable {α : Type} [Scalar α]

/-- Must hold exactly. -/
def required : Strength α :=
  ⟨Scalar.ofNat 1001001000⟩

/-- A strong preference. -/
def strong : Strength α :=
  ⟨Scalar.ofNat 1000000⟩

/-- A medium preference. -/
def medium : Strength α :=
  ⟨Scalar.ofNat 1000⟩

/-- A weak preference. -/
def weak : Strength α :=
  ⟨Scalar.ofNat 1⟩

/-- Just below required: wins over every other preference and never over a
required constraint. -/
def touch : Strength α :=
  ⟨Scalar.ofNat 1001000999⟩

/-- A strength cut to the range from zero to required.  What is not a number
stays what it is, and so does a zero of either sign. -/
def clip (value : α) : Strength α :=
  if Scalar.less value Scalar.zero then ⟨Scalar.zero⟩
  else if Scalar.less required.value value then required
  else ⟨value⟩

/-- How two strengths compare, if they do. -/
def order? (a b : Strength α) : Option Ordering :=
  Scalar.order? a.value b.value

/-- Whether the constraint must hold exactly. -/
def isRequired (s : Strength α) : Bool :=
  Scalar.atLeast s.value required.value

end Strength

end Strengths

section Relations

/-- How an expression relates to zero. -/
inductive Relation
  | equalTo
  | lessOrEqual
  | greaterOrEqual
deriving DecidableEq, Hashable, Inhabited

namespace Relation

/-- All relations, in ordinal order. -/
def all : List Relation :=
  [equalTo, lessOrEqual, greaterOrEqual]

/-- The number by which a relation travels. -/
def ordinal (r : Relation) : Nat :=
  r.ctorIdx

/-- The relation of a number. -/
def ofOrdinal? (n : Nat) : Option Relation :=
  all[n]?

/-- The sign of a relation. -/
def sign : Relation → String
  | equalTo => "=="
  | lessOrEqual => "<="
  | greaterOrEqual => ">="

theorem ofOrdinal?_ordinal (r : Relation) :
    ofOrdinal? r.ordinal = some r := by
  cases r <;> rfl

end Relation

end Relations

section Constraints

/-- An expression related to zero at some strength. -/
structure Constraint (α : Type) where
  /-- A label, which plays no part in what the constraint is. -/
  name : String
  /-- The left side; the right side is zero. -/
  expression : Expression α
  /-- How the two sides relate. -/
  relation : Relation
  /-- How much that matters. -/
  strength : Strength α

namespace Constraint

variable {α : Type}

/-- Whether any term refers to a proxy. -/
def hasProxies (c : Constraint α) : Bool :=
  c.expression.hasProxies

variable [Scalar α]

/-- A constraint between two expressions: their difference relates to zero. -/
def relate (name : String) (lhs : Expression α) (relation : Relation)
    (rhs : Expression α) (strength : Strength α) : Constraint α :=
  ⟨name, lhs - rhs, relation, strength⟩

/-- Whether an assignment of values satisfies the constraint exactly. -/
def Holds (value : Variable → α) (c : Constraint α) : Prop :=
  let x := c.expression.eval value
  match c.relation with
  | .equalTo => Scalar.isZero x = true
  | .lessOrEqual => Scalar.positive x = false
  | .greaterOrEqual => Scalar.negative x = false

/-- By how much an assignment of values violates the constraint. -/
def violation (value : Variable → α) (c : Constraint α) : α :=
  let x := c.expression.eval value
  let above := if Scalar.positive x then x else Scalar.zero
  let below := if Scalar.negative x then -x else Scalar.zero
  match c.relation with
  | .equalTo => above + below
  | .lessOrEqual => above
  | .greaterOrEqual => below

end Constraint

end Constraints

end Tether
