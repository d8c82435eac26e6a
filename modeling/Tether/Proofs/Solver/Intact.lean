import Tether.Proofs.Solver.Stability
import Tether.Proofs.Solver.Undertaking
import Tether.Proofs.Tableau.Counting

/-!
# Every call keeps the tableau intact

A proper solver makes only known symbols basic, so in every solver that a run reaches
the count of basic symbols is the number of rows and no operation on the tableau has
failed, whatever the answers were and whatever the arithmetic does.  So it is in every
state that a loop visits, also if the loop goes on forever and its call gives no answer.
-/

namespace Tether
namespace Solver

open Simplex

variable {α : Type} {s : Solver α}

section Rows

theorem intact_dropArtificial (h : s.tableau.Intact) (x : Symbol) :
    (s.dropArtificial x).tableau.Intact :=
  h.modifyMentioning x _

variable [Scalar α]

theorem intact_enter (h : s.tableau.Intact) {x : Symbol} (hx : s.tableau.Knows x) (q : Row α) :
    (s.enter x q).tableau.Intact :=
  (h.modifyMentioning x _).insert (knows_substitute.mpr hx).id_lt q

theorem intact_pivot (h : s.tableau.Intact) {entering : Symbol}
    (he : s.tableau.Knows entering) (leaving : Symbol) (r : Row α) :
    ((s.dropRow leaving).pivot leaving entering r).tableau.Intact :=
  intact_enter (s := s.dropRow leaving) (h.erase leaving) (knows_dropRow.mpr he) _

theorem removalStable_intact : RemovalStable (fun s : Solver α => s.tableau.Intact) where
  dropRow := fun _ x h => h.erase x
  substitute := fun _ x _ h => h.modifyMentioning x _
  withObjective := fun _ _ h => h
  withUnknowns := fun _ _ h => h
  withEdits := fun _ _ h => h

theorem primalStep_keeps_intact (goal : Goal) (hp : s.Proper) (h : s.tableau.Intact) :
    (primalStep goal s).Keeps (fun s => s.tableau.Intact) (fun p => p.1.tableau.Intact) := by
  unfold primalStep
  split
  · exact h
  · rename_i objective hobj
    split
    · exact h
    · rename_i entering hent
      split
      · exact h
      · have he := (admits_goalRow? hp hobj).parametric _ (mem_symbols_of_entering? hent).1
        exact intact_pivot h he.1 _ _

/-- The primal loop keeps a proper solver proper and intact. -/
theorem Proper.intact_optimize (hp : s.Proper) (h : s.tableau.Intact) (goal : Goal)
    (limit : Nat) :
    Ensures (s.optimize goal limit) (fun p => p.1.Proper ∧ p.1.tableau.Intact) :=
  ensures_iterate (I := fun s => s.Proper ∧ s.tableau.Intact)
    (fun _ hs => (primalStep_keeps_proper goal hs.1).and (primalStep_keeps_intact goal hs.1 hs.2))
    limit ⟨hp, h⟩

theorem dualStep_keeps_intact (hp : s.Proper) (h : s.tableau.Intact) :
    (dualStep s).Keeps (fun s => s.tableau.Intact) (fun p => p.1.tableau.Intact) := by
  unfold dualStep
  split
  · exact h
  · rename_i leaving _
    dsimp only
    split
    · exact h
    · rename_i r hr
      split
      · exact h
      · rename_i entering hent
        have he := (hp.rows leaving.id r hr).parametric _ (mem_symbols_of_dualEntering? hent).1
        exact intact_pivot (s := { s with infeasible := _ }) h he.1 _ _

/-- The dual loop keeps a proper solver intact. -/
theorem Proper.intact_dualOptimize (hp : s.Proper) (h : s.tableau.Intact) (limit : Nat) :
    Ensures (s.dualOptimize limit) (fun p => p.1.tableau.Intact) :=
  (ensures_iterate (I := fun s => s.Proper ∧ s.tableau.Intact)
    (fun _ hs => (dualStep_keeps_proper hs.1).and (dualStep_keeps_intact hs.1 hs.2))
    limit ⟨hp, h⟩).mono (fun _ hp => hp.2)

theorem Proper.intact_reoptimize {ε : Type} (hp : s.Proper) (h : s.tableau.Intact)
    (limit : Nat) (internal : String → ε) :
    Ensures (reoptimize limit internal s) (fun p => p.1.tableau.Intact) :=
  ensures_reoptimize ((hp.intact_optimize h .primary limit).mono
    (fun _ hq => ⟨fun _ => hq.2, fun _ _ => hq.2⟩))

end Rows

variable [Scalar α]

section Adding

variable {c : Constraint α} {r : Row α} {tag : Tag} {u : Solver α}

theorem Proper.intact_install (hp : s.Proper) (h : s.tableau.Intact) (limit : Nat)
    (c : Constraint α) (tag : Tag) :
    Ensures (install limit s c tag) (fun p => p.1.tableau.Intact) :=
  Proper.intact_reoptimize (s := s.enlist c tag) (hp.of_rows rfl rfl rfl rfl) h limit _

theorem Proper.intact_settleProbe (hp : s.Proper) (h : s.tableau.Intact)
    (artificial : Symbol) (success : Bool) :
    (s.settleProbe artificial success).2.tableau.Intact := by
  unfold Solver.settleProbe
  split
  · exact intact_dropArtificial h artificial
  · rename_i r hr
    dsimp only
    split
    · exact h.erase artificial
    · split
      · exact h.erase artificial
      · rename_i entering he
        have hk := (hp.rows _ r hr).parametric _ (mem_symbols_of_firstPivotable? he).1
        exact intact_dropArtificial (intact_pivot h hk.1 artificial r) artificial

omit [Scalar α] in
theorem intact_host (h : s.tableau.Intact) (r : Row α) : (s.host r).tableau.Intact :=
  (h.of_pads (Tableau.pads_newSymbol s.tableau .slack)).insert
    (Tableau.knows_newSymbol s.tableau .slack).id_lt r

/-- A probe makes its artificial symbol basic and drops its row again. -/
theorem Proper.intact_probe (hp : s.Proper) (h : s.tableau.Intact) (hr : s.tableau.Admits r)
    (limit : Nat) : Ensures (probe limit s r) (fun p => p.1.tableau.Intact) := by
  unfold Solver.probe
  refine Ensures.map (((hp.host hr .slack).intact_optimize (intact_host h r) .artificial
    limit).mono ?_)
  rintro ⟨s', answer⟩ ⟨hp', h'⟩
  cases answer with
  | error why => exact h'
  | ok u => exact hp'.withArtificial.intact_settleProbe h' _ _

/-- A draft may be probed. -/
theorem Made.intact_probe (hm : Made s c r tag u) (h : u.tableau.Intact) (limit : Nat) :
    Ensures (probe limit { u with tableau := u.tableau.openJournal } r)
      (fun p => p.1.tableau.Intact) :=
  hm.ledger_openJournal.1.proper.intact_probe h.openJournal hm.ledger_openJournal.2 limit

/-- A symbol of a draft may enter. -/
theorem Made.intact_enter (hm : Made s c r tag u) (h : u.tableau.Intact) {x : Symbol}
    (hx : x ∈ r.symbols ∨ x ∈ tag.symbols) : (u.enter x (r.solveFor x)).tableau.Intact := by
  have hk : u.tableau.Parametric x := hx.elim (hm.admits.parametric x) (hm.parametric x)
  exact Solver.intact_enter h hk.1 _

theorem Made.intact_install (hm : Made s c r tag u) (h : u.tableau.Intact) {x : Symbol}
    (hx : x ∈ r.symbols ∨ x ∈ tag.symbols) (limit : Nat) :
    Ensures (install limit (u.enter x (r.solveFor x)) c tag)
      (fun p => p.1.tableau.Intact) :=
  (hm.ledger_enter hx).proper.intact_install (hm.intact_enter h hx) limit c tag

theorem Made.intact_installByProbe (hm : Made s c r tag u) (h : u.tableau.Intact)
    (limit known : Nat) :
    Ensures (installByProbe limit u known c r tag) (fun p => p.1.tableau.Intact) := by
  refine ensures_installByProbe (fun p hp => ?_)
  have hprobe : p.1.tableau.Intact := hm.intact_probe h limit _ hp
  refine ⟨fun _ => ?_, fun _ => ?_, fun _ _ => hprobe.commit⟩
  · exact (hm.ledger_keepProbe hp).1.proper.intact_install hprobe.commit limit c tag
  · exact h.rollback (ensures_probe_recalls limit u r _ hp).1 hprobe.faultless

theorem Ledger.intact_add (hs : s.Ledger) (h : s.tableau.Intact) (limit : Nat)
    (c : Constraint α) : Ensures (s.add limit c) (fun p => p.1.tableau.Intact) := by
  have hm := made_createRow hs c
  have hu := h.of_pads hm.drafts.tableau
  exact ensures_add (fun _ => h) (fun _ x hx => hm.intact_install hu (subject?_mem hx) limit)
    (fun _ _ _ => hm.intact_installByProbe hu limit _)
    (fun _ _ _ => hm.intact_install hu (Or.inr (by simp [Tag.symbols])) limit)
    (fun _ _ _ _ => hu)

end Adding

section Calls

theorem Ledger.intact_remove (hs : s.Ledger) (h : s.tableau.Intact) (limit : Nat)
    (c : Constraint α) : Ensures (s.remove limit c) (fun p => p.1.tableau.Intact) := by
  refine ensures_remove (fun _ => h) ?_
  rintro ⟨installed, tag⟩ hf
  have hdone := removalStable_intact.uninstall
    (s := { s with constraints := s.constraints.erase c }) h installed tag
  exact (hs.releasing_detach hf).releaseVariables.1.proper.intact_reoptimize hdone limit _

theorem intact_shiftEdit (h : s.tableau.Intact) (tag : Tag) (delta : α) :
    (s.shiftEdit tag delta).tableau.Intact := by
  unfold Solver.shiftEdit
  split
  · rw [tableau_shiftRow]
    exact h.modify _ _
  · split
    · rw [tableau_shiftRow]
      exact h.modify _ _
    · exact h.modifyMentioning _ _

theorem Ledger.intact_suggest (hs : s.Ledger) (h : s.tableau.Intact) (limit : Nat)
    (v : Variable) (x : α) : Ensures (s.suggest limit v x) (fun p => p.1.tableau.Intact) := by
  have hmoved := hs.withEdits (hs.held.suggest v x)
  refine ensures_suggest (fun _ => h) (fun _ _ _ => h) (fun edit hv => ?_)
  obtain ⟨v', hm, -⟩ := OrderedMap.mem_of_get? hv
  have hk := hs.tagged.knows _ (hs.held.installed _ hm)
  have hshift := hmoved.proper.reworked_shiftEdit hk (x - edit.constant)
  refine hshift.proper.intact_dualOptimize (intact_shiftEdit ?_ _ _) limit
  exact h

/-- Calls keep the tableau intact, also those that break down. -/
theorem callStable_intact (limit : Nat) :
    CallStable limit False (fun s : Solver α => s.tableau.Intact) where
  add := fun hl h c => (hl.intact_add h limit c).mono (fun _ hp _ => hp)
  remove := fun hl h c => (hl.intact_remove h limit c).mono (fun _ hp _ => hp)
  suggest := fun hl h v x => (hl.intact_suggest h limit v x).mono (fun _ hp _ => hp)
  withEdits := fun _ h => h
  reset := fun _ => Tableau.intact_empty

/-- After every run the count of basic symbols is the number of rows, and nothing has
failed. -/
theorem intact_run (settings : Settings α) (limit : Nat) (calls : List (SolverCall α)) :
    Ensures ((empty settings).run limit calls) (fun p => p.1.tableau.Intact) :=
  ((callStable_intact limit).run (ledger_empty settings) Tableau.intact_empty
    (fun h => h) calls).mono (fun _ hp => hp (fun hstrict => hstrict.elim))

end Calls

section Loops

variable {t start : Solver α} {c : Constraint α} {call : SolverCall α} {loop : Loop}

/-- The loops of an addition start with an intact tableau. -/
theorem Ledger.intact_adding (hs : s.Ledger) (h : s.tableau.Intact) (ha : s.Adding c loop start) :
    start.tableau.Intact := by
  have hm := made_createRow hs c
  have hu := h.of_pads hm.drafts.tableau
  cases ha with
  | subject hx => exact hm.intact_enter hu (subject?_mem hx)
  | redundant hx hd hz => exact hm.intact_enter hu (Or.inr (by simp [Tag.symbols]))
  | probing hx hd => exact intact_host hu.openJournal _
  | @probed hx hd limit u hp =>
      have hprobe : u.tableau.Intact := hm.intact_probe hu limit _ hp
      exact hprobe.commit

/-- Every loop of a call starts with an intact tableau. -/
theorem Ledger.intact_starts (hs : s.Ledger) (h : s.tableau.Intact)
    (hstart : Starts s call loop start) : start.tableau.Intact := by
  have hremove : ∀ {edits : OrderedMap Variable (Edit α)} {c : Constraint α}
      (e : Constraint α × Tag), (uninstall { s with
        edits := edits, constraints := s.constraints.erase c } e.1 e.2).tableau.Intact :=
    fun e => removalStable_intact.uninstall (by exact h) e.1 e.2
  cases hstart with
  | add hp hc ha => exact hs.intact_adding h ha
  | remove hf => exact hremove _
  | addEdit hv hr ha =>
      cases ha with
      | add hp hc ha => exact hs.intact_adding h ha
  | removeEdit hv hr =>
      cases hr with
      | remove hf => exact hremove _
  | suggest hv hx => exact intact_shiftEdit (by exact h) _ _

/-- The tableau is intact in every state that a loop visits. -/
theorem Proper.intact_visits (hp : start.Proper) (h : start.tableau.Intact)
    (hv : Visits loop.step start t) : t.tableau.Intact := by
  have hstep : ∀ u : Solver α, u.Proper ∧ u.tableau.Intact → (loop.step u).Keeps
      (fun u => u.Proper ∧ u.tableau.Intact) (fun p => p.1.Proper ∧ p.1.tableau.Intact) := by
    rintro u ⟨hp, h⟩
    refine (loop.step_keeps_proper hp).and ?_
    cases loop with
    | primal goal => exact primalStep_keeps_intact goal hp h
    | dual => exact dualStep_keeps_intact hp h
  exact (hv.keeps hstep ⟨hp, h⟩).2

end Loops

end Solver
end Tether
