import Tether.Proofs.Solver.LedgerRuns

/-!
# Calls and the loops they undertake

Which pivot loops a call runs, and in which state each of them starts: an
addition lowers the objective, after a probe where one is needed; a removal
lowers it too; a suggestion runs dual steps.  A list of calls runs the loops of
its members, up to the first one that fails.

The books of a solver are in order where a loop starts, and so they are in every
state that the loop visits, whether it ends or not.
-/

namespace Tether
namespace Solver

open Simplex

variable {α : Type} [Scalar α]

section Loops

/-- A pivot loop. -/
inductive Loop
  /-- Primal steps towards a goal. -/
  | primal (goal : Goal)
  /-- Dual steps. -/
  | dual

/-- What a loop repeats. -/
def Loop.step : Loop → Solver α → Step (Solver α)
  | .primal goal => primalStep goal
  | .dual => dualStep

/-- A step of a loop keeps what row work keeps, if it has nothing to do with infeasible
rows. -/
theorem RowStable.loopStep {I : Solver α → Prop} (h : RowStable I)
    (hi : ∀ (s : Solver α) l, I s → I { s with infeasible := l }) (loop : Loop) {s : Solver α}
    (hs : I s) : (loop.step s).Keeps I (fun p => I p.1) := by
  cases loop with
  | primal goal => exact h.primalStep hs goal
  | dual => exact h.dualStep hi hs

end Loops

section Starting

/-- The loops of the addition of a constraint that is not a duplicate, and the states in
which they start. -/
inductive Adding (s : Solver α) (c : Constraint α) : Loop → Solver α → Prop
  /-- The row has a subject. -/
  | subject {x : Symbol} (hx : subject? (s.createRow c).1 (s.createRow c).2.1 = some x) :
      Adding s c (.primal .primary)
        (((s.createRow c).2.2.enter x ((s.createRow c).1.solveFor x)).enlist c
          (s.createRow c).2.1)
  /-- The row is a redundant one of dummies. -/
  | redundant (hx : subject? (s.createRow c).1 (s.createRow c).2.1 = none)
      (hd : (s.createRow c).1.allDummies = true)
      (hz : Scalar.nearZero (s.createRow c).1.constant = true) :
      Adding s c (.primal .primary)
        (((s.createRow c).2.2.enter (s.createRow c).2.1.marker
          ((s.createRow c).1.solveFor (s.createRow c).2.1.marker)).enlist c (s.createRow c).2.1)
  /-- The row is probed. -/
  | probing (hx : subject? (s.createRow c).1 (s.createRow c).2.1 = none)
      (hd : (s.createRow c).1.allDummies = false) :
      Adding s c (.primal .artificial)
        (host { (s.createRow c).2.2 with tableau := (s.createRow c).2.2.tableau.openJournal }
          (s.createRow c).1)
  /-- The row has been probed with success. -/
  | probed (hx : subject? (s.createRow c).1 (s.createRow c).2.1 = none)
      (hd : (s.createRow c).1.allDummies = false) {limit : Nat} {u : Solver α}
      (hu : probe limit
        { (s.createRow c).2.2 with tableau := (s.createRow c).2.2.tableau.openJournal }
        (s.createRow c).1 = .ok (u, .ok true)) :
      Adding s c (.primal .primary) (u.keepProbe.enlist c (s.createRow c).2.1)

/-- The loops of a call, and the states in which they start. -/
inductive Starts : Solver α → SolverCall α → Loop → Solver α → Prop
  | add {s : Solver α} {c : Constraint α} {loop : Loop} {start : Solver α}
      (hp : c.hasProxies = false) (hc : s.hasConstraint c = false)
      (h : s.Adding c loop start) : Starts s (.add c) loop start
  | remove {s : Solver α} {c : Constraint α} {e : Constraint α × Tag}
      (hf : s.constraints.find? c = some e) :
      Starts s (.remove c) (.primal .primary)
        (uninstall { s with constraints := s.constraints.erase c } e.1 e.2)
  | addEdit {s : Solver α} {v : Variable} {strength : Strength α} {loop : Loop}
      {start : Solver α} (hv : s.hasEditVariable v = false)
      (hr : (Strength.clip strength.value).isRequired = false)
      (h : Starts s (.add (holding v (s.value v) (.clip strength.value))) loop start) :
      Starts s (.addEdit v strength) loop start
  | removeEdit {s : Solver α} {v : Variable} {edit : Edit α} {loop : Loop}
      {start : Solver α} (hv : s.edits.get? v = some edit)
      (h : Starts { s with edits := s.edits.erase v } (.remove edit.constraint) loop start) :
      Starts s (.removeEdit v) loop start
  | suggest {s : Solver α} {v : Variable} {x : α} {edit : Edit α}
      (hv : s.edits.get? v = some edit) (hx : Scalar.isZero (x - edit.constant) = false) :
      Starts s (.suggest v x) .dual
        (shiftEdit { s with
          edits := s.edits.modify v (fun edit => { edit with constant := x }) } edit.tag
            (x - edit.constant))

end Starting

section Undertaking

variable {δ ε : Type} {s : Solver α} {start : Solver α} {loop : Loop} {l : List δ}
  {first : Solver α → δ → Loop → Solver α → Prop}
  {k : Nat → Solver α → δ → Outcome (Solver α) ε}

/-- The loops of a list of calls, each made where the one before it succeeds. -/
inductive Within (first : Solver α → δ → Loop → Solver α → Prop)
    (k : Nat → Solver α → δ → Outcome (Solver α) ε) :
    Solver α → List δ → Loop → Solver α → Prop
  | head {s : Solver α} {x : δ} {rest : List δ} {loop : Loop} {start : Solver α}
      (h : first s x loop start) : Within first k s (x :: rest) loop start
  | tail {s u : Solver α} {x : δ} {rest : List δ} {limit : Nat} {loop : Loop}
      {start : Solver α} (hu : k limit s x = .ok (u, .ok ()))
      (h : Within first k u rest loop start) : Within first k s (x :: rest) loop start

omit [Scalar α] in
/-- What the calls keep holds where a loop of theirs is started. -/
theorem Within.exists_first {I : Solver α → Prop} (h : Within first k s l loop start)
    (hs : I s)
    (hk : ∀ s, I s → ∀ x ∈ l, ∀ limit u, k limit s x = .ok (u, .ok ()) → I u) :
    ∃ u, I u ∧ ∃ x, first u x loop start := by
  induction h with
  | head h => exact ⟨_, hs, _, h⟩
  | tail hu _ ih =>
      refine ih (hk _ hs _ (by simp) _ _ hu) (fun s hs x hx => ?_)
      exact hk s hs x (List.mem_cons_of_mem _ hx)

/-- The loops of a call, and the states in which they start: its own, or those of the
members of its list. -/
inductive Undertakes (s : Solver α) : SolverCall α → Loop → Solver α → Prop
  | single {call : SolverCall α} {loop : Loop} {start : Solver α}
      (h : Starts s call loop start) : Undertakes s call loop start
  | addAll {cs : List (Constraint α)} {loop : Loop} {start : Solver α}
      (h : Within (fun s c => Starts s (.add c)) (fun limit s c => s.add limit c) s cs loop start) :
      Undertakes s (.addAll cs) loop start
  | removeAll {cs : List (Constraint α)} {loop : Loop} {start : Solver α}
      (h : Within (fun s c => Starts s (.remove c)) (fun limit s c => s.remove limit c) s cs loop
        start) : Undertakes s (.removeAll cs) loop start

/-- Every loop of a call is one of a single call, made in a state with what additions and
removals keep. -/
theorem Undertakes.exists_starts {I : Solver α → Prop} {call : SolverCall α}
    (h : Undertakes s call loop start) (hs : I s)
    (hadd : ∀ cs, call = .addAll cs → ∀ s, I s → ∀ c ∈ cs, ∀ limit u,
      s.add limit c = .ok (u, .ok ()) → I u)
    (hremove : ∀ s, I s → ∀ c limit u, s.remove limit c = .ok (u, .ok ()) → I u) :
    ∃ u call', I u ∧ Starts u call' loop start := by
  cases h with
  | single h => exact ⟨s, _, hs, h⟩
  | addAll h =>
      obtain ⟨u, hu, c, h⟩ := h.exists_first hs (hadd _ rfl)
      exact ⟨u, _, hu, h⟩
  | removeAll h =>
      obtain ⟨u, hu, c, h⟩ := h.exists_first hs (fun s hs c _ => hremove s hs c)
      exact ⟨u, _, hu, h⟩

end Undertaking

section Books

variable {s t start : Solver α} {c : Constraint α} {call : SolverCall α} {loop : Loop}

/-- The loops of an addition start with the books in order. -/
theorem Ledger.adding (hs : s.Ledger) (hc : s.hasConstraint c = false)
    (h : s.Adding c loop start) : start.Ledger := by
  have hm := made_createRow hs c
  have hv := fun t ht hz => contains_createRow hs (c := c) (t := t) ht hz
  cases h with
  | subject hx =>
      exact (hm.ledger_enlist hs hc hv (hm.ledger_enter (subject?_mem hx)) (books_enter _ _ _)
        (fun _ hy => knows_enter.mpr hy)).1
  | redundant hx hd hz =>
      exact (hm.ledger_enlist hs hc hv (hm.ledger_enter (Or.inr (by simp [Tag.symbols])))
        (books_enter _ _ _) (fun _ hy => knows_enter.mpr hy)).1
  | probing hx hd => exact hm.ledger_openJournal.1.host hm.ledger_openJournal.2
  | probed hx hd hu =>
      obtain ⟨hkeep, hbooks, hknows⟩ := hm.ledger_keepProbe hu
      exact (hm.ledger_enlist hs hc hv hkeep hbooks hknows).1

/-- Every loop of a call starts with the books in order. -/
theorem Ledger.starts (hs : s.Ledger) (h : Starts s call loop start) : start.Ledger := by
  have hremove : ∀ {s : Solver α} {c : Constraint α} {e : Constraint α × Tag}, s.Ledger →
      s.constraints.find? c = some e →
        (uninstall { s with constraints := s.constraints.erase c } e.1 e.2).Ledger :=
    fun hs hf => (hs.releasing_detach hf).releaseVariables.1
  cases h with
  | add hp hc h => exact hs.adding hc h
  | remove hf => exact hremove hs hf
  | addEdit hv hr h =>
      cases h with
      | add hp hc h => exact hs.adding hc h
  | removeEdit hv h =>
      cases h with
      | remove hf => exact hremove (hs.withEdits (hs.held.erase _)) hf
  | @suggest _ v x edit hv hx =>
      obtain ⟨v', hm, -⟩ := OrderedMap.mem_of_get? hv
      have hk := hs.tagged.knows _ (hs.held.installed _ hm)
      have hmoved := hs.withEdits (hs.held.suggest v x)
      have hshift := hmoved.proper.reworked_shiftEdit hk (x - edit.constant)
      exact hmoved.of_books hshift.proper hshift.books hshift.knows

theorem Loop.step_keeps_proper (loop : Loop) (h : s.Proper) :
    (loop.step s).Keeps Proper (fun p => p.1.Proper) := by
  cases loop with
  | primal goal => exact primalStep_keeps_proper goal h
  | dual => exact dualStep_keeps_proper h

/-- A loop leaves the books. -/
theorem books_of_visits (h : Visits loop.step start t) : t.books = start.books :=
  h.keeps (fun _ hu => (rowStable_books start).loopStep (fun _ _ h => h) loop hu) rfl

/-- A loop keeps the books in order in every state that it visits. -/
theorem Ledger.visits (hs : start.Ledger) (h : Visits loop.step start t) : t.Ledger := by
  have hproper : t.Proper := h.keeps (fun _ hu => loop.step_keeps_proper hu) hs.proper
  have hknows : ∀ x, start.tableau.Knows x → t.tableau.Knows x := fun x hx =>
    h.keeps (fun _ hu => (rowStable_knows x).loopStep (fun _ _ h => h) loop hu) hx
  exact hs.of_books hproper (books_of_visits h) hknows

end Books

end Solver
end Tether
