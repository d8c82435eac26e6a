import Tether.Scalar.Basic

/-!
# Symbols and rows

A row says that something equals a constant plus a sum of coefficients
times symbols.  Its cells stand in ascending order of their symbols, each
symbol at most once, and a cell whose coefficient becomes near zero is
dropped.

The meaning of a row is its value under an assignment of scalars to
symbols.
-/

namespace Tether
namespace Simplex

section Symbols

/-- What a symbol stands for. -/
inductive SymbolKind
  /-- A variable of the layout; unrestricted. -/
  | external
  /-- The room left by an inequality; never negative. -/
  | slack
  /-- By how much a preference is missed; never negative. -/
  | error
  /-- The marker of a required equality; always zero. -/
  | dummy
deriving DecidableEq, Inhabited

/-- An unknown of the tableau. -/
structure Symbol where
  /-- The number of the symbol; symbols are ordered by it. -/
  id : Nat
  /-- What the symbol stands for. -/
  kind : SymbolKind
deriving DecidableEq, Inhabited

namespace Symbol

/-- Whether the symbol stands for a variable. -/
def isExternal (s : Symbol) : Bool :=
  s.kind == .external

/-- Whether the symbol measures a missed preference. -/
def isError (s : Symbol) : Bool :=
  s.kind == .error

/-- Whether the symbol marks a required equality. -/
def isDummy (s : Symbol) : Bool :=
  s.kind == .dummy

/-- Whether the symbol is restricted to non-negative values and may enter or
leave the basis freely. -/
def isPivotable (s : Symbol) : Bool :=
  s.kind == .slack || s.kind == .error

end Symbol

end Symbols

section Rows

/-- A symbol with its coefficient. -/
abbrev Cell (α : Type) : Type :=
  Symbol × α

/-- A constant plus a sum of coefficients times symbols. -/
structure Row (α : Type) where
  /-- The value of the row when every symbol in it is zero. -/
  constant : α
  /-- The symbols of the row with their coefficients, in ascending order. -/
  cells : List (Cell α)
deriving DecidableEq

namespace Row

variable {α : Type}

/-- The row without cells. -/
def ofConstant (constant : α) : Row α :=
  ⟨constant, []⟩

/-- Whether the row has no cells. -/
def isConstant (r : Row α) : Bool :=
  r.cells.isEmpty

/-- The coefficient of a symbol, if it has a cell. -/
def get? (r : Row α) (s : Symbol) : Option α :=
  (r.cells.find? (fun c => c.1 == s)).map (·.2)

/-- Whether a symbol has a cell. -/
def contains (r : Row α) (s : Symbol) : Bool :=
  r.cells.any (fun c => c.1 == s)

/-- The row without the cell of a symbol. -/
def erase (r : Row α) (s : Symbol) : Row α :=
  { r with cells := r.cells.eraseP (fun c => c.1 == s) }

/-- Whether every cell belongs to a dummy. -/
def allDummies (r : Row α) : Bool :=
  r.cells.all (·.1.isDummy)

/-- The lowest symbol of the row that may enter the basis. -/
def firstPivotable? (r : Row α) : Option Symbol :=
  (r.cells.find? (·.1.isPivotable)).map (·.1)

variable [Scalar α]

/-- The coefficient of a symbol, zero if it has no cell. -/
def coefficient (r : Row α) (s : Symbol) : α :=
  (r.get? s).getD Scalar.zero

/-- Puts a cell in front, unless its coefficient is near zero. -/
def consCell (s : Symbol) (x : α) (rest : List (Cell α)) : List (Cell α) :=
  if Scalar.nearZero x then rest else (s, x) :: rest

/-- Adds to the coefficient of a symbol in a list of cells. -/
def insertCell (s : Symbol) (x : α) : List (Cell α) → List (Cell α)
  | [] => consCell s (Scalar.zero + x) []
  | (t, y) :: rest =>
      if s.id < t.id then consCell s (Scalar.zero + x) ((t, y) :: rest)
      else if s = t then consCell s (y + x) rest
      else (t, y) :: insertCell s x rest

/-- Adds to the coefficient of a symbol; the cell goes if it cancels out. -/
def insert (r : Row α) (s : Symbol) (x : α) : Row α :=
  { r with cells := insertCell s x r.cells }

/-- Adds to the constant. -/
def shift (r : Row α) (x : α) : Row α :=
  { r with constant := r.constant + x }

/-- Adds a multiple of another row. -/
def addRow (r other : Row α) (factor : α) : Row α :=
  other.cells.foldl (fun r c => r.insert c.1 (c.2 * factor))
    (r.shift (other.constant * factor))

/-- The row with every sign reversed. -/
def negate (r : Row α) : Row α :=
  ⟨-r.constant, r.cells.map (fun c => (c.1, -c.2))⟩

/-- Reads the row as an equation with zero and solves it for a symbol in it:
the result is what that symbol equals. -/
def solveFor (r : Row α) (s : Symbol) : Row α :=
  let factor := -Scalar.one / (r.get? s).getD Scalar.one
  ⟨r.constant * factor, (r.erase s).cells.map (fun c => (c.1, c.2 * factor))⟩

/-- Reads the row as what one symbol equals and solves it for another symbol
in it. -/
def exchange (r : Row α) (leaving entering : Symbol) : Row α :=
  (r.insert leaving (-Scalar.one)).solveFor entering

/-- Puts a row in the place of a symbol. -/
def substitute (r : Row α) (s : Symbol) (replacement : Row α) : Row α :=
  match r.get? s with
  | some x => (r.erase s).addRow replacement x
  | none => r

/-- Whether the constant lies below zero by more than the tolerance. -/
def isInfeasible (r : Row α) : Bool :=
  Scalar.infeasible r.constant

/-- The sum of the cells under an assignment of scalars to symbols. -/
def sumCells (value : Symbol → α) : List (Cell α) → α
  | [] => Scalar.zero
  | c :: rest => c.2 * value c.1 + sumCells value rest

/-- The value of the row under an assignment of scalars to symbols. -/
def eval (value : Symbol → α) (r : Row α) : α :=
  r.constant + sumCells value r.cells

end Row

end Rows

section Choice

variable {α : Type} [Scalar α]

/-- Takes a candidate over the best one so far if it is strictly less; the
first candidate must pass a test. -/
def improve (admits : α → Bool) (best : Option (Cell α)) (candidate : Cell α) :
    Option (Cell α) :=
  let better :=
    match best with
    | none => admits candidate.2
    | some b => Scalar.less candidate.2 b.2
  if better then some candidate else best

/-- The symbol with the least scalar among those that pass a test, the first
of equal ones. -/
def least? (admits : α → Bool) (candidates : List (Cell α)) : Option Symbol :=
  (candidates.foldl (improve admits) none).map (·.1)

end Choice

end Simplex
end Tether
