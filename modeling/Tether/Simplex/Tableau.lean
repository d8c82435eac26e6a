import Tether.Simplex.Row

/-!
# The tableau

A slot for every symbol ever made.  The slot of a basic symbol holds its
row; the other symbols are parametric.

While a journal is open, every slot that existed when it was opened is saved
before its first change.  Rolling back drops the symbols made since, puts
the saved slots back and restores the count of basic symbols; committing
merely forgets the journal.

An operation that writes to a slot needs the slot, and one that lowers the
count of basic symbols needs a count above zero.  Where this fails, the
tableau is marked as faulted, and the mark stays.
-/

namespace Tether
namespace Simplex

/-- The place of a symbol in the tableau. -/
structure Slot (α : Type) where
  /-- What the symbol stands for. -/
  kind : SymbolKind
  /-- The row of the symbol, if it is basic. -/
  row : Option (Row α)

/-- What slots held when they were first changed. -/
structure Journal (α : Type) where
  /-- How many symbols there were when the journal was opened. -/
  symbols : Nat
  /-- How many of them were basic. -/
  basicCount : Nat
  /-- What changed slots held, by symbol number; an entry is never
  overwritten. -/
  saved : List (Nat × Option (Row α))

/-- Symbols and the rows of the basic ones. -/
structure Tableau (α : Type) where
  /-- One slot for every symbol, by symbol number. -/
  slots : Array (Slot α)
  /-- How many slots hold a row. -/
  basicCount : Nat
  /-- The open journal, if there is one. -/
  journal : Option (Journal α)
  /-- Whether an operation has written to a slot that does not exist or has
  lowered a count of zero.  A program stops there; what a faulted tableau
  holds is of no account. -/
  faulted : Bool

namespace Tableau

variable {α : Type}

/-- The tableau without symbols. -/
def empty : Tableau α :=
  ⟨#[], 0, none, false⟩

section Reading

/-- How many symbols have been made. -/
def symbolCount (t : Tableau α) : Nat :=
  t.slots.size

/-- The row in the slot of a number. -/
def rowAt? (t : Tableau α) (id : Nat) : Option (Row α) :=
  t.slots[id]?.bind (·.row)

/-- The row of a symbol, if it is basic. -/
def row? (t : Tableau α) (s : Symbol) : Option (Row α) :=
  t.rowAt? s.id

/-- Whether a symbol has a row. -/
def isBasic (t : Tableau α) (s : Symbol) : Bool :=
  (t.row? s).isSome

/-- The basic symbols with their rows, in ascending order. -/
def basics (t : Tableau α) : List (Symbol × Row α) :=
  t.slots.toList.zipIdx.filterMap (fun entry =>
    entry.1.row.map (fun r => (⟨entry.2, entry.1.kind⟩, r)))

/-- The basic symbols whose rows mention a symbol, in ascending order. -/
def mentioning (t : Tableau α) (s : Symbol) : List Symbol :=
  (t.basics.filter (fun b => b.2.contains s)).map (·.1)

end Reading

section Journals

/-- Starts recording what slots held. -/
def openJournal (t : Tableau α) : Tableau α :=
  { t with journal := some ⟨t.symbolCount, t.basicCount, []⟩ }

/-- Keeps the changes made since the journal was opened. -/
def commit (t : Tableau α) : Tableau α :=
  { t with journal := none }

/-- Puts one saved slot back.  The slot has to exist. -/
def restore (t : Tableau α) (saved : Nat × Option (Row α)) : Tableau α :=
  { t with
    slots := t.slots.modify saved.1 (fun slot => { slot with row := saved.2 })
    faulted := t.faulted || !decide (saved.1 < t.symbolCount) }

/-- Undoes the changes made since the journal was opened. -/
def rollback (t : Tableau α) : Tableau α :=
  match t.journal with
  | none => t
  | some j =>
      j.saved.foldl restore
        { t with slots := t.slots.take j.symbols, basicCount := j.basicCount, journal := none }

/-- Records what a slot holds, if a journal is open, the slot is older than
the journal and nothing is recorded for it yet. -/
def save (t : Tableau α) (id : Nat) : Tableau α :=
  match t.journal with
  | none => t
  | some j =>
      if id < j.symbols && !j.saved.any (fun entry => entry.1 == id) then
        { t with journal := some { j with saved := j.saved ++ [(id, t.rowAt? id)] } }
      else t

end Journals

section Changing

/-- Makes a symbol. -/
def newSymbol (t : Tableau α) (kind : SymbolKind) : Symbol × Tableau α :=
  (⟨t.symbolCount, kind⟩, { t with slots := t.slots.push ⟨kind, none⟩ })

/-- Changes the row of a symbol, if it is basic. -/
def modify (t : Tableau α) (s : Symbol) (f : Row α → Row α) : Tableau α :=
  let t := t.save s.id
  { t with slots := t.slots.modify s.id (fun slot => { slot with row := slot.row.map f }) }

/-- Makes a symbol basic with the given row.  Its slot has to exist. -/
def insert (t : Tableau α) (s : Symbol) (r : Row α) : Tableau α :=
  let t := t.save s.id
  { t with
    slots := t.slots.modify s.id (fun slot => { slot with row := some r })
    basicCount := if t.isBasic s then t.basicCount else t.basicCount + 1
    faulted := t.faulted || !decide (s.id < t.symbolCount) }

/-- Makes a symbol parametric and drops its row.  A row that is dropped has to
be counted. -/
def erase (t : Tableau α) (s : Symbol) : Tableau α :=
  let t := t.save s.id
  { t with
    slots := t.slots.modify s.id (fun slot => { slot with row := none })
    basicCount := if t.isBasic s then t.basicCount - 1 else t.basicCount
    faulted := t.faulted || (t.isBasic s && t.basicCount == 0) }

/-- Changes every row that mentions a symbol, in ascending order. -/
def modifyMentioning (t : Tableau α) (s : Symbol) (f : Symbol → Row α → Row α) :
    Tableau α :=
  (t.mentioning s).foldl (fun t b => t.modify b (f b)) t

end Changing

section Laws

theorem slots_save (t : Tableau α) (id : Nat) :
    (t.save id).slots = t.slots := by
  unfold save
  split
  · rfl
  · split <;> rfl

theorem rowAt?_insert (t : Tableau α) (s : Symbol) (r : Row α) (id : Nat) :
    (t.insert s r).rowAt? id =
      if s.id = id ∧ id < t.symbolCount then some r else t.rowAt? id := by
  simp only [insert, rowAt?, symbolCount, slots_save, Array.getElem?_modify]
  by_cases h : s.id = id
  · subst h
    by_cases h : s.id < t.slots.size <;> simp [h]
  · simp [h]

theorem rowAt?_erase (t : Tableau α) (s : Symbol) (id : Nat) :
    (t.erase s).rowAt? id = if s.id = id then none else t.rowAt? id := by
  simp only [erase, rowAt?, slots_save, Array.getElem?_modify]
  by_cases h : s.id = id
  · subst h
    by_cases h : s.id < t.slots.size <;> simp [h]
  · simp [h]

theorem rowAt?_modify (t : Tableau α) (s : Symbol) (f : Row α → Row α) (id : Nat) :
    (t.modify s f).rowAt? id =
      if s.id = id then (t.rowAt? id).map f else t.rowAt? id := by
  simp only [modify, rowAt?, slots_save, Array.getElem?_modify]
  by_cases h : s.id = id
  · subst h
    by_cases h : s.id < t.slots.size <;> simp [h]
  · simp [h]

end Laws

end Tableau

end Simplex
end Tether
