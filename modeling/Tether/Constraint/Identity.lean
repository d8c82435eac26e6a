import Std.Data.HashSet.Basic
import Tether.Constraint.Basic

/-!
# Identity and order of constraints

Two constraints are the same if their expressions, relations and strengths
are, whatever they are called.  Scalars are told apart by identity, terms
by position.

* The order compares constants, numbers of terms, the terms in turn, the
  relations and the strengths.
* The digest is the sequence of words that a hash is computed from; it
  leaves out the name, so equal constraints have equal digests.
* A sorted set keeps one constraint of each content: the last one given.
-/

namespace Tether

section Order

variable {α : Type} [Scalar α]

/-- The order of terms: variable, coefficient, and the mark last. -/
def Term.order (a b : Term α) : Ordering :=
  (compare a.unknown b.unknown).then <|
    (Scalar.rank a.coefficient b.coefficient).then <|
      compare a.isConstant.toNat b.isConstant.toNat

/-- The first difference between two lists of terms, position by position. -/
def Term.orderAll : List (Term α) → List (Term α) → Ordering
  | a :: as, b :: bs => (Term.order a b).then (Term.orderAll as bs)
  | _, _ => .eq

/-- The order of expressions: constant, number of terms, then the terms. -/
def Expression.order (a b : Expression α) : Ordering :=
  (Scalar.rank a.constant b.constant).then <|
    (compare a.terms.length b.terms.length).then <|
      Term.orderAll a.terms b.terms

/-- The order of constraints: expression, relation, then strength. -/
def Constraint.order (a b : Constraint α) : Ordering :=
  (Expression.order a.expression b.expression).then <|
    (compare a.relation.ordinal b.relation.ordinal).then <|
      Scalar.rank a.strength.value b.strength.value

instance : Ord (Term α) where
  compare := Term.order

instance : Ord (Expression α) where
  compare := Expression.order

instance : Ord (Constraint α) where
  compare := Constraint.order

end Order

section Content

variable {α : Type}

/-- What makes a constraint the one it is. -/
def Constraint.content (c : Constraint α) :
    Expression α × Relation × Strength α :=
  (c.expression, c.relation, c.strength)

variable [Scalar α]

/-- Same content, whatever the names. -/
instance : BEq (Constraint α) where
  beq a b := decide (a.content = b.content)

end Content

section Digest

variable {α : Type}

/-- One item of what a hash is computed from. -/
inductive Word (α : Type)
  /-- A variable. -/
  | unknown (v : Variable)
  /-- A scalar, by identity. -/
  | scalar (x : α)
  /-- A yes or no. -/
  | flag (b : Bool)
  /-- How many items follow. -/
  | count (n : Nat)
  /-- A relation. -/
  | relation (r : Relation)
deriving DecidableEq, Hashable

/-- The words of a term. -/
def Term.digest (t : Term α) : List (Word α) :=
  [.unknown t.unknown, .scalar t.coefficient, .flag t.isConstant]

/-- The words of an expression. -/
def Expression.digest (e : Expression α) : List (Word α) :=
  .scalar e.constant :: .count e.terms.length :: e.terms.flatMap Term.digest

/-- The words of a constraint. -/
def Constraint.digest (c : Constraint α) : List (Word α) :=
  c.expression.digest ++ [.relation c.relation, .scalar c.strength.value]

variable [Hashable α]

instance : Hashable (Expression α) where
  hash e := hash e.digest

instance : Hashable (Constraint α) where
  hash c := hash c.digest

end Digest

section Sets

/-- The number of different elements of a list. -/
def countDistinct {β : Type} [BEq β] [Hashable β] (l : List β) : Nat :=
  (Std.HashSet.ofList l).size

/-- Of neighbours that compare as equal, keeps the last. -/
def keepLast {β : Type} [Ord β] : List β → List β
  | a :: b :: rest =>
      if compare a b = .eq then keepLast (b :: rest)
      else a :: keepLast (b :: rest)
  | short => short

/-- The elements in ascending order; equal ones stay in their order. -/
def sorted {β : Type} [Ord β] (l : List β) : List β :=
  l.mergeSort (fun a b => (compare a b).isLE)

/-- The places of the elements, in ascending order of the elements. -/
def sortedPlaces {β : Type} [Ord β] (l : List β) : List Nat :=
  (l.zipIdx.mergeSort (fun a b => (compare a.1 b.1).isLE)).map (·.2)

/-- The elements in ascending order, of equal ones only the last given. -/
def sortedSet {β : Type} [Ord β] (l : List β) : List β :=
  keepLast (sorted l)

end Sets

end Tether
