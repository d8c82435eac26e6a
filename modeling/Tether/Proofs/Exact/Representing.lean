import Tether.Proofs.Exact.Undertaking

/-!
# What a loop starts from

A solver represents the constraints on its list if its rows stand for them, be they
feasible or not.  Every loop of a call starts from such a solver but that of a probe, which
starts from a tableau with an equation more: there the row that is probed has no constraint
on the list yet.
-/

namespace Tether

open Simplex

namespace Solver

variable {s t u w start : Solver Rat} {c : Constraint Rat} {call : SolverCall Rat} {loop : Loop}
  {leaving entering : Symbol} {r : Row Rat} {tag : Tag}

/-- A solver in tiers, with its books in order, whose rows stand for the constraints on
its list.  Neither need the rows be feasible nor the objective lowest. -/
structure Represents (s : Solver Rat) : Prop where
  ledger : s.Ledger
  layered : s.Layered
  models : s.Models (demands s.edits s.constraints.entries)

theorem Sound.represents (h : s.Sound) : s.Represents :=
  ⟨h.ledger, h.optimal.layered, h.optimal.models⟩

section Starting

/-- A constraint is represented as soon as its row is hosted and it is on the list. -/
theorem Drafted.represents_enlist (hs : s.Sound) (hc : s.hasConstraint c = false)
    (hd : Drafted s c r tag u)
    (hv : ∀ t ∈ c.expression.terms, Scalar.nearZero t.coefficient = false →
      u.unknowns.contains t.unknown = true)
    (hw : Hosts u r w) (hl : w.Ledger) (hb : w.books = u.books)
    (hk : ∀ x, u.tableau.Knows x → w.tableau.Knows x) : (w.enlist c tag).Represents := by
  obtain ⟨hledger, hlist⟩ := hd.toMade.ledger_enlist hs.ledger hc hv hl hb hk
  have hstanding := Drafted.standing_enlist hs hc hd hw hb
  have hedits : (w.enlist c tag).edits = s.edits :=
    (congrArg (fun b => b.2.2.2) hb).trans hd.drafts.edits
  refine ⟨hledger, hstanding.layered, ?_⟩
  rw [hedits, show (w.enlist c tag).constraints.entries = _ from hlist]
  exact hstanding.models

/-- The loops of an addition, other than that of a probe, start with the new constraint
represented. -/
theorem Sound.represents_adding (hs : s.Sound) (hc : s.hasConstraint c = false)
    (h : s.Adding c loop start) (hne : loop ≠ .primal .artificial) : start.Represents := by
  have hd := drafted_createRow hs.ledger hs.optimal.layered c
  have hv := fun t ht hz => contains_createRow hs.ledger (c := c) (t := t) ht hz
  have hknows : ∀ {x : Symbol} {q : Row Rat} (y : Symbol),
      (s.createRow c).2.2.tableau.Knows y →
        ((s.createRow c).2.2.enter x q).tableau.Knows y := fun _ hy => knows_enter.mpr hy
  cases h with
  | subject hx =>
      exact Drafted.represents_enlist hs hc hd hv (Drafted.hosts_subject hd hs hx)
        (hd.toMade.ledger_enter (subject?_mem hx)) (books_enter _ _ _) hknows
  | redundant hx hdum hz =>
      exact Drafted.represents_enlist hs hc hd hv (Drafted.hosts_dummy hd hs hdum hz)
        (hd.toMade.ledger_enter (Or.inr (by simp [Tag.symbols]))) (books_enter _ _ _) hknows
  | probing => exact absurd rfl hne
  | probed hx hdum hw =>
      obtain ⟨hhosts, hledger, hbooks, hk⟩ := Drafted.ledger_keepProbe hd hx hs hdum hw
      exact Drafted.represents_enlist hs hc hd hv hhosts hledger hbooks hk

/-- A suggestion is represented once the rows are shifted. -/
theorem Sound.represents_suggest (hs : s.Sound) {v : Variable} {edit : Edit Rat}
    (hv : s.edits.get? v = some edit) (x : Rat) :
    ((s.retarget v x).shiftEdit edit.tag (x - edit.constant)).Represents := by
  obtain ⟨y, d, hm, hu⟩ := hs.exists_shifted hv x
  have hmodels := hs.models_shifted hv hm hu
  have hledger : (s.retarget v x).Ledger := hs.ledger.withEdits (hs.ledger.held.suggest v x)
  have hbooks := hu.books
  simp only [books, Prod.mk.injEq] at hbooks
  obtain ⟨-, hconstraints, -, hedits⟩ := hbooks
  refine ⟨hledger.of_books hu.layered.proper hu.books (fun y hy => (hu.knows y).mpr hy),
    hu.layered, ?_⟩
  rw [hedits, hconstraints]
  exact hmodels

/-- The loop of a probe starts with a row without a subject as that of an artificial
variable. -/
theorem Starts.exists_probing (h : Starts s call (.primal .artificial) start) :
    ∃ c, subject? (s.createRow c).1 (s.createRow c).2.1 = none ∧
      start = host { (s.createRow c).2.2 with
        tableau := (s.createRow c).2.2.tableau.openJournal } (s.createRow c).1 := by
  cases h with
  | add hp hc h =>
      cases h with
      | probing hx hd => exact ⟨_, hx, rfl⟩
  | addEdit hv hr h =>
      cases h with
      | add hp hc h =>
          cases h with
          | probing hx hd => exact ⟨_, hx, rfl⟩
  | removeEdit hv h => cases h

/-- The loops of a call, other than that of a probe, start with the constraints on the list
represented. -/
theorem Sound.represents_starts (hs : s.Sound) (h : Starts s call loop start)
    (hne : loop ≠ .primal .artificial) : start.Represents := by
  cases h with
  | add hp hc h => exact hs.represents_adding hc h hne
  | remove hf =>
      obtain ⟨hledger, -, hstanding⟩ := hs.optimal.toStanding.uninstall hs.ledger
        hs.idle.artificial hf (fun _ _ => rfl) rfl
      exact ⟨hledger, hstanding.layered, hstanding.models⟩
  | addEdit hv hr h =>
      cases h with
      | add hp hc h => exact hs.represents_adding hc h hne
  | removeEdit hv h =>
      cases h with
      | remove hf =>
          obtain ⟨hledger, -, hstanding⟩ := (hs.standing_ended _).uninstall (hs.ledger_ended _)
            hs.idle.artificial hf (hs.current_ended hv hf) rfl
          exact ⟨hledger, hstanding.layered, hstanding.models⟩
  | suggest hv hx => exact hs.represents_suggest hv _

end Starting

end Solver
end Tether
