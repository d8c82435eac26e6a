import Tether.Proofs.Outcome
import Tether.Proofs.Row.Specks
import Tether.Solver.Call

/-!
# What is solved on the way

Pivots and additions solve an equation for a symbol.  For every call there is the
list of the solves that it makes, in their order, and a run makes those of its
calls.  A solve is grounded if its symbol has a coefficient in the equation that does
not count as zero, unless an earlier solve left that coefficient as a speck.

What is claimed of a computation and of its solves is claimed together: they account
for a property of the answer if every solve is grounded and the answer has the
property, which may speak of all solves so far.
-/

namespace Tether

open Simplex

/-- An equation that is solved for a symbol. -/
structure Solve (α : Type) where
  /-- The row that equals zero. -/
  equation : Row α
  /-- The symbol that the equation is solved for. -/
  symbol : Symbol

variable {α : Type} [Scalar α]

section Solves

namespace Solve

/-- The row of a symbol that leaves, solved for the symbol that enters. -/
def ofPivot (r : Row α) (leaving entering : Symbol) : Solve α :=
  ⟨r.insert leaving (-Scalar.one), entering⟩

/-- What the symbol equals. -/
def result (e : Solve α) : Row α :=
  e.equation.solveFor e.symbol

/-- Some solve for the symbol left the cell, and the cell is a speck. -/
def Left (E : List (Solve α)) (x : Symbol) (c : Cell α) : Prop :=
  ∃ e ∈ E, e.symbol = x ∧ c ∈ e.result.specks

theorem Left.mono {E E' : List (Solve α)} {x : Symbol} {c : Cell α} (h : Left E x c)
    (hE : ∀ e ∈ E, e ∈ E') : Left E' x c := by
  obtain ⟨e, he, hx⟩ := h
  exact ⟨e, hE e he, hx⟩

/-- The symbol has a coefficient in the equation, which counts as zero only if an
earlier solve left it so. -/
def Grounded (E : List (Solve α)) (e : Solve α) : Prop :=
  ∃ a, e.equation.get? e.symbol = some a ∧
    (Scalar.nearZero a = true → ∃ x, Left E x (e.symbol, a))

/-- Every solve of a list is grounded in those before it. -/
def AllGrounded (E : List (Solve α)) : List (Solve α) → Prop
  | [] => True
  | e :: rest => e.Grounded E ∧ AllGrounded (E ++ [e]) rest

theorem allGrounded_append_iff {E l l' : List (Solve α)} :
    AllGrounded E (l ++ l') ↔ AllGrounded E l ∧ AllGrounded (E ++ l) l' := by
  induction l generalizing E with
  | nil => simp [AllGrounded]
  | cons e rest ih => simp [AllGrounded, ih, and_assoc]

theorem AllGrounded.grounded {E before after : List (Solve α)} {e : Solve α}
    (h : AllGrounded E (before ++ e :: after)) : e.Grounded (E ++ before) :=
  (allGrounded_append_iff.mp h).2.1

/-- If the symbol has a cell, then the solve is grounded if every speck of the
equation was left by an earlier solve. -/
theorem grounded_of_specks {E : List (Solve α)} {e : Solve α}
    (hx : e.symbol ∈ e.equation.symbols)
    (h : ∀ c ∈ e.equation.specks, ∃ x, Left E x c) : e.Grounded E := by
  obtain ⟨a, ha⟩ : ∃ a, e.equation.get? e.symbol = some a :=
    Option.ne_none_iff_exists'.mp (fun hn => Row.get?_eq_none_iff.mp hn hx)
  exact ⟨a, ha, fun hz => h _ (Row.mem_specks.mpr ⟨Row.mem_cells_of_get? ha, hz⟩)⟩

end Solve

end Solves

section Logs

/-- What is solved after an answer, if there is one. -/
def solvesAfter {β : Type} (o : Except Halt β) (next : β → List (Solve α)) :
    List (Solve α) :=
  match o with
  | .ok b => next b
  | .error _ => []

/-- What a pivot loop solves, if every pivot solves what one looks up before it. -/
def loopSolves {σ : Type} (step : σ → Step σ) (solve? : σ → Option (Solve α)) :
    Nat → σ → List (Solve α)
  | limit, s =>
      match step s with
      | .pivoted s' =>
          (solve? s).toList ++
            match limit with
            | 0 => []
            | limit + 1 => loopSolves step solve? limit s'
      | _ => []

namespace Solver

section Pivots

/-- What a primal step solves. -/
def primalSolve? (goal : Goal) (s : Solver α) : Option (Solve α) := do
  let objective ← s.goalRow? goal
  let entering ← entering? objective
  let (leaving, r) ← withRow s.tableau (leaving? s.tableau entering)
  return .ofPivot r leaving entering

/-- What a dual step solves. -/
def dualSolve? (s : Solver α) : Option (Solve α) := do
  let leaving ← s.mostInfeasible?
  let r ← s.tableau.row? leaving
  let entering ← s.dualEntering? r
  return .ofPivot r leaving entering

/-- What the removal of a marker solves. -/
def markerSolve? (s : Solver α) (marker : Symbol) : Option (Solve α) :=
  if s.tableau.isBasic marker then none
  else
    (withRow s.tableau (markerLeaving? s.tableau marker)).map
      (fun (leaving, r) => .ofPivot r leaving marker)

/-- What the end of a probe solves. -/
def settleSolve? (s : Solver α) (artificial : Symbol) : Option (Solve α) := do
  let r ← s.tableau.row? artificial
  let entering ← r.firstPivotable?
  return .ofPivot r artificial entering

def optimizeSolves (goal : Goal) (limit : Nat) (s : Solver α) : List (Solve α) :=
  loopSolves (primalStep goal) (primalSolve? goal) limit s

def dualSolves (limit : Nat) (s : Solver α) : List (Solve α) :=
  loopSolves dualStep dualSolve? limit s

end Pivots

section Calls

def probeSolves (limit : Nat) (s : Solver α) (r : Row α) : List (Solve α) :=
  let (artificial, s) := s.newSymbol .slack
  let s := { s with
    tableau := s.tableau.insert artificial r
    artificial := some r }
  optimizeSolves .artificial limit s ++
    solvesAfter (s.optimize .artificial limit) (fun
      | (_, .error _) => []
      | (s, .ok ()) => (settleSolve? { s with artificial := none } artificial).toList)

def installSolves (limit : Nat) (s : Solver α) (c : Constraint α) (tag : Tag) :
    List (Solve α) :=
  let s := s.retainVariables c
  optimizeSolves .primary limit { s with constraints := s.constraints.insert c tag }

def installByProbeSolves (limit : Nat) (s : Solver α) (c : Constraint α) (r : Row α)
    (tag : Tag) : List (Solve α) :=
  let s := { s with tableau := s.tableau.openJournal }
  probeSolves limit s r ++
    solvesAfter (probe limit s r) (fun
      | (s, .ok true) => installSolves limit s.keepProbe c tag
      | _ => [])

/-- What an addition solves: the new row first, if it has a subject or is
redundant. -/
def addSolves (limit : Nat) (s : Solver α) (c : Constraint α) : List (Solve α) :=
  if c.hasProxies || s.hasConstraint c then []
  else
    let (r, tag, s) := s.createRow c
    match subject? r tag with
    | some x => ⟨r, x⟩ :: installSolves limit (s.enter x (r.solveFor x)) c tag
    | none =>
        if !r.allDummies then installByProbeSolves limit s c r tag
        else if Scalar.nearZero r.constant then
          ⟨r, tag.marker⟩ :: installSolves limit (s.enter tag.marker (r.solveFor tag.marker)) c tag
        else []

/-- What a removal solves: the row that gives way to the marker first. -/
def removeSolves (limit : Nat) (s : Solver α) (c : Constraint α) : List (Solve α) :=
  match s.constraints.find? c with
  | none => []
  | some (installed, tag) =>
      let s := { s with constraints := s.constraints.erase c }
      (markerSolve? (s.removeWeights installed tag) tag.marker).toList ++
        optimizeSolves .primary limit (s.uninstall installed tag)

def forEachSolves {β ε : Type} (call : Solver α → β → Outcome (Solver α) ε)
    (solves : Solver α → β → List (Solve α)) (s : Solver α) : List β → List (Solve α)
  | [] => []
  | x :: rest =>
      solves s x ++ solvesAfter (call s x) (fun
        | (_, .error _) => []
        | (s, .ok ()) => forEachSolves call solves s rest)

def addEditSolves (limit : Nat) (s : Solver α) (v : Variable) (strength : Strength α) :
    List (Solve α) :=
  let strength : Strength α := .clip strength.value
  if s.hasEditVariable v || strength.isRequired then []
  else addSolves limit s (holding v (s.value v) strength)

def removeEditSolves (limit : Nat) (s : Solver α) (v : Variable) : List (Solve α) :=
  match s.edits.get? v with
  | none => []
  | some edit => removeSolves limit { s with edits := s.edits.erase v } edit.constraint

def suggestSolves (limit : Nat) (s : Solver α) (v : Variable) (x : α) : List (Solve α) :=
  match s.edits.get? v with
  | none => []
  | some edit =>
      let delta := x - edit.constant
      let s := { s with edits := s.edits.modify v (fun edit => { edit with constant := x }) }
      if Scalar.isZero delta then []
      else dualSolves limit (s.shiftEdit edit.tag delta)

/-- What a call solves. -/
def callSolves (limit : Nat) (s : Solver α) : SolverCall α → List (Solve α)
  | .add c => addSolves limit s c
  | .addAll cs => forEachSolves (add limit) (addSolves limit) s cs
  | .remove c => removeSolves limit s c
  | .removeAll cs => forEachSolves (remove limit) (removeSolves limit) s cs
  | .addEdit v strength => addEditSolves limit s v strength
  | .removeEdit v => removeEditSolves limit s v
  | .suggest v x => suggestSolves limit s v x
  | _ => []

/-- What a run solves. -/
def runSolves (limit : Nat) (s : Solver α) : List (SolverCall α) → List (Solve α)
  | [] => []
  | call :: rest =>
      callSolves limit s call ++
        solvesAfter (s.perform limit call) (fun (s, _) => runSolves limit s rest)

end Calls

end Solver

end Logs

section Accounts

variable {β γ : Type} {E l l' : List (Solve α)} {o : Except Halt β}
  {P Q : List (Solve α) → β → Prop}

/-- Every solve of a computation is grounded, and the answer has a property that may
depend on all solves so far. -/
structure Accounts (E l : List (Solve α)) (o : Except Halt β)
    (Q : List (Solve α) → β → Prop) : Prop where
  grounded : Solve.AllGrounded E l
  ensures : Ensures o (Q (E ++ l))

theorem accounts_ok {b : β} (h : Q E b) : Accounts E [] (.ok b) Q :=
  ⟨trivial, ensures_ok (by rwa [List.append_nil])⟩

theorem accounts_error (halt : Halt) : Accounts E [] (.error halt) Q :=
  ⟨trivial, ensures_error halt⟩

theorem Accounts.mono (h : Accounts E l o P) (hPQ : ∀ E b, P E b → Q E b) :
    Accounts E l o Q :=
  ⟨h.grounded, h.ensures.mono (fun b => hPQ _ b)⟩

/-- What holds of the solves by themselves can be claimed too. -/
theorem Accounts.and (h : Accounts E l o P) {R : List (Solve α) → Prop} (hR : R (E ++ l)) :
    Accounts E l o (fun E b => P E b ∧ R E) :=
  ⟨h.grounded, h.ensures.mono (fun _ hb => ⟨hb, hR⟩)⟩

/-- Neither does it matter to the solves what else holds of the answer. -/
theorem Accounts.with_ensures (h : Accounts E l o P) {R : β → Prop} (hR : Ensures o R) :
    Accounts E l o (fun E b => P E b ∧ R b) :=
  ⟨h.grounded, h.ensures.and hR⟩

theorem Accounts.cons {e : Solve α} (h : Accounts (E ++ [e]) l o Q) (he : e.Grounded E) :
    Accounts E (e :: l) o Q :=
  ⟨⟨he, h.grounded⟩, by simpa using h.ensures⟩

/-- Solves that come first may be accounted for by themselves. -/
theorem Accounts.prepend (h : Accounts (E ++ l) l' o Q) (hl : Solve.AllGrounded E l) :
    Accounts E (l ++ l') o Q :=
  ⟨Solve.allGrounded_append_iff.mpr ⟨hl, h.grounded⟩, by simpa using h.ensures⟩

theorem Accounts.map {f : β → γ} {Q : List (Solve α) → γ → Prop}
    (h : Accounts E l o (fun E b => Q E (f b))) : Accounts E l (o.map f) Q :=
  ⟨h.grounded, h.ensures.map⟩

theorem Accounts.bind {f : β → Except Halt γ} {next : β → List (Solve α)}
    {Q : List (Solve α) → γ → Prop} (h : Accounts E l o P)
    (hf : ∀ E b, o = .ok b → P E b → Accounts E (next b) (f b) Q) :
    Accounts E (l ++ solvesAfter o next) (o.bind f) Q := by
  cases o with
  | error halt => exact ⟨by simpa [solvesAfter] using h.grounded, ensures_error halt⟩
  | ok b =>
      have hb := hf _ b rfl (h.ensures b rfl)
      refine ⟨Solve.allGrounded_append_iff.mpr ⟨h.grounded, hb.grounded⟩, ?_⟩
      rw [← List.append_assoc]
      exact hb.ensures

theorem Accounts.map_after {f : β → γ} {next : β → List (Solve α)}
    {Q : List (Solve α) → γ → Prop} (h : Accounts E l o P)
    (hf : ∀ E b, o = .ok b → P E b →
      Solve.AllGrounded E (next b) ∧ Q (E ++ next b) (f b)) :
    Accounts E (l ++ solvesAfter o next) (o.map f) Q := by
  have hmap : o.map f = o.bind (fun b => .ok (f b)) := by
    cases o <;> rfl
  rw [hmap]
  refine h.bind (fun E b hb hP => ?_)
  obtain ⟨hg, hQ⟩ := hf E b hb hP
  exact ⟨hg, ensures_ok hQ⟩

/-- A loop accounts for its goal if every pivot makes a grounded solve and keeps an
invariant that may speak of the solves so far. -/
theorem accounts_iterate {σ : Type} {step : σ → Step σ} {solve? : σ → Option (Solve α)}
    {I : List (Solve α) → σ → Prop}
    {Q : List (Solve α) → σ × Except Breakdown Unit → Prop}
    (hstep : ∀ E s, I E s → (step s).Keeps
      (fun s' => ∃ e, solve? s = some e ∧ e.Grounded E ∧ I (E ++ [e]) s') (Q E))
    (limit : Nat) {s : σ} (hs : I E s) :
    Accounts E (loopSolves step solve? limit s) (iterate step limit s) Q := by
  induction limit generalizing E s with
  | zero =>
      have h := hstep E s hs
      unfold loopSolves iterate
      cases hr : step s with
      | finished s' => rw [hr] at h; exact accounts_ok h
      | stuck s' why => rw [hr] at h; exact accounts_ok h
      | pivoted s' =>
          rw [hr] at h
          obtain ⟨e, he, hg, -⟩ := h
          rw [he]
          exact (accounts_error _).cons hg
  | succ limit ih =>
      have h := hstep E s hs
      unfold loopSolves iterate
      cases hr : step s with
      | finished s' => rw [hr] at h; exact accounts_ok h
      | stuck s' why => rw [hr] at h; exact accounts_ok h
      | pivoted s' =>
          rw [hr] at h
          obtain ⟨e, he, hg, hs'⟩ := h
          rw [he]
          exact (ih hs').cons hg

/-- Calls one after another account for what each of them keeps. -/
theorem Solver.accounts_forEach {ε : Type} {call : Solver α → β → Outcome (Solver α) ε}
    {solves : Solver α → β → List (Solve α)} {I : List (Solve α) → Solver α → Prop}
    (hstep : ∀ E s, I E s → ∀ x,
      Accounts E (solves s x) (call s x) (fun E p => I E p.1))
    {s : Solver α} (hs : I E s) (xs : List β) :
    Accounts E (Solver.forEachSolves call solves s xs) (Solver.forEach call s xs)
      (fun E p => I E p.1) := by
  induction xs generalizing E s with
  | nil => exact accounts_ok hs
  | cons x rest ih =>
      refine (hstep E s hs x).bind ?_
      rintro E ⟨s', answer⟩ - hs'
      cases answer with
      | error e => exact accounts_ok hs'
      | ok done => exact ih hs'

end Accounts

end Tether
