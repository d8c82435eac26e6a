import Tether.Proofs.Solver.Preference
import Tether.Proofs.Solver.SolvingSteps

/-!
# Solving alone leaves specks

Every call accounts for a sifted solver: a new row has no speck before it is solved, the
loops pivot on cells of rows, and an undone probe brings rows back with the specks they
had.  So the specks in the rows are what solves left there, and a pivot on a speck is a
pivot on what an earlier solve left.

Double precision numbers do leave specks.  A solve divides by a large coefficient, and the
speck that it leaves gives a row up that has nothing to do with what is removed.
-/

namespace Tether
namespace Solver

open Simplex

variable {α : Type} [Scalar α] {s u : Solver α} {E : List (Solve α)} {c : Constraint α}
  {r : Row α} {tag : Tag}

section Subjects

theorem mem_symbols_insert_new {x : Symbol} (hr : ∀ y ∈ r.symbols, y.id < x.id) {a : α}
    (ha : Scalar.nearZero (Scalar.zero + a) = false) : x ∈ (r.insert x a).symbols := by
  rw [Row.symbols, Row.cells_insert_new hr ha]
  simp

/-- A new symbol has a cell in the row that it is put in. -/
theorem Draft.newSymbol_mem (h : Draft (r, s)) (kind : SymbolKind) {a : α}
    (ha : Scalar.nearZero (Scalar.zero + a) = false) :
    (s.newSymbol kind).1 ∈ (r.insert (s.newSymbol kind).1 a).symbols :=
  mem_symbols_insert_new (fun z hz => (h.2.parametric z hz).1.id_lt) ha

/-- It keeps that cell when another new symbol is put in. -/
theorem Draft.newSymbol_mem_pair (h : Draft (r, s)) (kind kind' : SymbolKind) {a : α}
    (ha : Scalar.nearZero (Scalar.zero + a) = false) (b : α) :
    (s.newSymbol kind).1 ∈ ((r.insert (s.newSymbol kind).1 a).insert
      ((s.newSymbol kind).2.newSymbol kind').1 b).symbols := by
  refine Row.mem_symbols_insert_of_ne (h.newSymbol_mem kind ha) (fun he => ?_) b
  have hlt := (Tableau.knows_newSymbol s.tableau kind).id_lt
  exact Nat.ne_of_lt hlt (congrArg Symbol.id he)

theorem marker_mem_addSlack (h : Draft (r, s)) (strength : Strength α) {a : α}
    (ha : Scalar.nearZero (Scalar.zero + a) = false) :
    (addSlack r s strength a).2.1.marker ∈ (addSlack r s strength a).1.symbols := by
  unfold addSlack
  dsimp only
  split
  · exact h.newSymbol_mem .slack ha
  · exact h.newSymbol_mem_pair .slack .error ha _

theorem marker_mem_addErrors [UnitSigns α] (h : Draft (r, s)) (strength : Strength α) :
    (addErrors r s strength).2.1.marker ∈ (addErrors r s strength).1.symbols := by
  unfold addErrors
  split
  · exact h.newSymbol_mem .dummy UnitSigns.keeps_one
  · exact h.newSymbol_mem_pair .error .error UnitSigns.keeps_neg _

theorem marker_mem_addMarkers [UnitSigns α] (h : Draft (r, s)) (c : Constraint α) :
    (addMarkers r s c).2.1.marker ∈ (addMarkers r s c).1.symbols := by
  unfold addMarkers
  split
  · exact marker_mem_addSlack h c.strength UnitSigns.keeps_one
  · exact marker_mem_addSlack h c.strength UnitSigns.keeps_neg
  · exact marker_mem_addErrors h c.strength

/-- The marker of a constraint has a cell in its row. -/
theorem marker_mem_createRow [UnitSigns α] (hs : s.Ledger) (c : Constraint α) :
    (s.createRow c).2.1.marker ∈ (s.createRow c).1.symbols := by
  have hmarkers := marker_mem_addMarkers (hs.draft_addTerms c) c
  rw [createRow_eq]
  dsimp only
  split
  · rwa [Row.symbols_negate]
  · exact hmarkers

variable [EvenTolerance α]

/-- The subject of a row has a cell in it. -/
theorem mem_symbols_of_subject? {x : Symbol} (h : subject? r tag = some x) : x ∈ r.symbols := by
  rcases subject?_mem_or_free h with hx | ⟨-, hx⟩
  · exact hx
  · exact mem_symbols_of_coefficient EvenTolerance.negative_zero (Bool.and_eq_true_iff.mp hx).2

/-- A new row may be solved for any symbol in it. -/
theorem grounded_createRow {x : Symbol} (hx : x ∈ (s.createRow c).1.symbols) :
    (Solve.mk (s.createRow c).1 x).Grounded E := by
  refine Solve.grounded_of_specks hx (fun d hd => ?_)
  rw [specks_createRow] at hd
  cases hd

end Subjects

section Suggesting

/-- A suggestion accounts for a sifted solver. -/
theorem Ledger.accounts_suggest (hs : s.Ledger) (h : Sifted E s) (limit : Nat) (v : Variable)
    (x : α) :
    Accounts E (suggestSolves limit s v x) (s.suggest limit v x) (fun E p => Sifted E p.1) := by
  unfold suggestSolves Solver.suggest
  cases hv : s.edits.get? v with
  | none => exact accounts_ok h
  | some edit =>
      have hsuggest : Sifted E { s with
          edits := s.edits.modify v (fun edit => { edit with constant := x }) } :=
        h.of_rows rfl rfl rfl
      dsimp only
      split
      · exact accounts_ok hsuggest
      · obtain ⟨v', hm, -⟩ := OrderedMap.mem_of_get? hv
        have hk := hs.tagged.knows _ (hs.held.installed _ hm)
        have hp := (hs.withEdits (hs.held.suggest v x)).proper.reworked_shiftEdit hk
          (x - edit.constant)
        have htracked := Tracked.dualOptimize
          ⟨hp.proper, hsuggest.shiftEdit edit.tag (x - edit.constant)⟩ limit
        exact Accounts.map (htracked.mono (fun E p hp => hp.2))

end Suggesting

variable [EvenTolerance α]

section Installing

theorem Tracked.reoptimize {ε : Type} (h : Tracked E s) (limit : Nat) (internal : String → ε) :
    Accounts E (optimizeSolves .primary limit s) (reoptimize limit internal s)
      (fun E p => Sifted E p.1) := by
  refine Accounts.map ((h.optimize .primary limit).mono ?_)
  rintro E ⟨s', answer⟩ hs'
  cases answer with
  | error why => exact hs'.2
  | ok done => exact hs'.2.of_rows rfl rfl rfl

theorem Tracked.install (h : Tracked E s) (limit : Nat) (c : Constraint α) (tag : Tag) :
    Accounts E (installSolves limit s c tag) (install limit s c tag)
      (fun E p => Sifted E p.1) :=
  Tracked.reoptimize (s := { s.retainVariables c with constraints := s.constraints.insert c tag })
    ⟨h.1.of_rows rfl rfl rfl rfl, h.2.of_rows rfl rfl rfl⟩ limit AddError.internal

theorem Tracked.probe (h : Tracked E s) (hr : s.tableau.Admits r) (hn : r.specks = [])
    (limit : Nat) :
    Accounts E (probeSolves limit s r) (probe limit s r) (fun E p => Tracked E p.1) := by
  have hhost := h.host hr hn .slack
  have hknows : Ensures (Solver.optimize .artificial limit { (s.newSymbol .slack).2 with
      tableau := (s.newSymbol .slack).2.tableau.insert (s.newSymbol .slack).1 r
      artificial := some r }) (fun p => p.1.tableau.Knows (s.newSymbol .slack).1) := by
    refine (rowStable_knows _).optimize (Tableau.knows_insert.mpr ?_) .artificial limit
    exact Tableau.knows_newSymbol s.tableau .slack
  refine (hhost.optimize .artificial limit).map_after ?_
  rintro E ⟨s', answer⟩ ho hs'
  cases answer with
  | error why => exact ⟨trivial, by rwa [List.append_nil]⟩
  | ok done =>
      have hs' : Tracked E { s' with artificial := none } :=
        ⟨hs'.1.withArtificial, hs'.2.objective, by simp, hs'.2.rows⟩
      exact hs'.settleProbe (hknows _ ho) _

theorem Tracked.installByProbe (h : Tracked E s) (hr : s.tableau.Admits r) (hn : r.specks = [])
    (limit known : Nat) :
    Accounts E (installByProbeSolves limit s c r tag) (installByProbe limit s known c r tag)
      (fun E p => Sifted E p.1) := by
  have hopen : Tracked E { s with tableau := s.tableau.openJournal } :=
    ⟨h.1.withJournal _, h.2.of_rows rfl rfl rfl⟩
  have hprobe := (hopen.probe (hr.of_parametric (fun _ _ hy => hy)) hn limit).and
    (R := fun E => Sifted E s) (h.2.mono _)
  refine hprobe.bind ?_
  rintro E ⟨s', answer⟩ hp ⟨hs', hs⟩
  have hkeep : Tracked E s'.keepProbe := ⟨hs'.1.withJournal none, hs'.2.of_rows rfl rfl rfl⟩
  cases answer with
  | error why => exact accounts_ok hkeep.2
  | ok success =>
      cases success with
      | true => exact hkeep.install limit c tag
      | false =>
          -- The journal brings the rows of before back, with their specks.
          refine accounts_ok ⟨hs.objective, by simp [undoProbe], ?_⟩
          have hback := (ensures_probe_recalls limit s r _ hp).1.rollback_eq
          show ∀ b ∈ s'.tableau.rollback.basics, _
          rw [hback]
          exact fun b hb => hs.rows b hb

end Installing

section Calls

/-- Removing a constraint accounts for a sifted solver. -/
theorem Ledger.accounts_remove (hs : s.Ledger) (h : Sifted E s) (limit : Nat)
    (c : Constraint α) :
    Accounts E (removeSolves limit s c) (s.remove limit c) (fun E p => Sifted E p.1) := by
  unfold removeSolves Solver.remove
  cases hf : s.constraints.find? c with
  | none => exact accounts_ok h
  | some entry =>
      obtain ⟨installed, tag⟩ := entry
      have hp : Proper { s with constraints := s.constraints.erase c } :=
        hs.proper.of_rows rfl rfl rfl rfl
      have hw := hp.reworked_removeWeights installed
        (hs.tagged.knows _ (OrderedMap.mem_of_find? hf).1)
      have herase : Sifted E { s with constraints := s.constraints.erase c } :=
        h.of_rows rfl rfl rfl
      have hws := herase.removeWeights installed tag
      obtain ⟨hg, hm⟩ := Tracked.removeMarker ⟨hw.proper, hws⟩ tag.marker
      have hu := (hs.releasing_detach hf).releaseVariables.1.proper
      exact (Tracked.reoptimize ⟨hu, hm.uninstall⟩ limit RemoveError.internal).prepend hg

/-- Ending an edit accounts for a sifted solver. -/
theorem Ledger.accounts_removeEdit (hs : s.Ledger) (h : Sifted E s) (limit : Nat)
    (v : Variable) :
    Accounts E (removeEditSolves limit s v) (s.removeEdit limit v)
      (fun E p => Sifted E p.1) := by
  unfold removeEditSolves Solver.removeEdit
  cases hv : s.edits.get? v with
  | none => exact accounts_ok h
  | some edit =>
      have herase := hs.withEdits (hs.held.erase v)
      exact Accounts.map (herase.accounts_remove (h.of_rows rfl rfl rfl) limit edit.constraint)

variable [UnitSigns α]

/-- Adding a constraint accounts for a sifted solver. -/
theorem Ledger.accounts_add (hs : s.Ledger) (h : Sifted E s) (limit : Nat) (c : Constraint α) :
    Accounts E (addSolves limit s c) (s.add limit c) (fun E p => Sifted E p.1) := by
  have hm := made_createRow hs c
  have hsolve : ∀ x ∈ (s.createRow c).1.symbols,
      Accounts E (⟨(s.createRow c).1, x⟩ :: installSolves limit
          ((s.createRow c).2.2.enter x ((s.createRow c).1.solveFor x)) c (s.createRow c).2.1)
        (Solver.install limit ((s.createRow c).2.2.enter x ((s.createRow c).1.solveFor x)) c
          (s.createRow c).2.1) (fun E p => Sifted E p.1) := by
    intro x hx
    refine Accounts.cons (Tracked.install ⟨(hm.ledger_enter (Or.inl hx)).proper, ?_⟩ limit c _)
      (grounded_createRow hx)
    exact (h.createRow c).enter (e := ⟨(s.createRow c).1, x⟩) (hm.admits.parametric x hx).1
  cases hp : c.hasProxies with
  | true =>
      rw [add_of_proxies hp]
      simpa [addSolves, hp] using accounts_error _
  | false =>
      cases hc : s.hasConstraint c with
      | true =>
          have hlog : addSolves limit s c = [] := by simp [addSolves, hc]
          rw [add_of_duplicate hp hc, hlog]
          exact accounts_ok h
      | false =>
          cases hx : subject? (s.createRow c).1 (s.createRow c).2.1 with
          | some x =>
              rw [add_of_subject hp hc hx]
              simpa [addSolves, hp, hc, hx] using hsolve x (mem_symbols_of_subject? hx)
          | none =>
              cases hd : (s.createRow c).1.allDummies with
              | false =>
                  rw [add_of_probing hp hc hx hd]
                  simpa [addSolves, hp, hc, hx, hd] using
                    Tracked.installByProbe ⟨hm.ledger.proper, h.createRow c⟩ hm.admits
                      (specks_createRow s c) limit s.unknowns.size
              | true =>
                  cases hz : Scalar.nearZero (s.createRow c).1.constant with
                  | true =>
                      rw [add_of_redundant hp hc hx hd hz]
                      simpa [addSolves, hp, hc, hx, hd, hz] using
                        hsolve _ (marker_mem_createRow hs c)
                  | false =>
                      have hlog : addSolves limit s c = [] := by
                        simp [addSolves, hx, hd, hz]
                      rw [add_of_contradictory hp hc hx hd hz, hlog]
                      exact accounts_ok ((h.createRow c).of_rows rfl rfl rfl)

/-- Beginning an edit accounts for a sifted solver. -/
theorem Ledger.accounts_addEdit (hs : s.Ledger) (h : Sifted E s) (limit : Nat) (v : Variable)
    (strength : Strength α) :
    Accounts E (addEditSolves limit s v strength) (s.addEdit limit v strength)
      (fun E p => Sifted E p.1) := by
  unfold addEditSolves Solver.addEdit
  cases hv : s.hasEditVariable v with
  | true => exact accounts_ok h
  | false =>
      cases hr : (Strength.clip strength.value : Strength α).isRequired with
      | true =>
          simp only [hr, Bool.or_true, Bool.false_eq_true, if_true, if_false]
          exact accounts_ok h
      | false =>
          simp only [hr, Bool.or_false, Bool.false_eq_true, if_false]
          refine Accounts.map ((hs.accounts_add h limit _).mono ?_)
          rintro E ⟨s', answer⟩ hs'
          cases answer with
          | error e => exact hs'
          | ok done =>
              dsimp only
              split
              · exact hs'
              · exact hs'.of_rows rfl rfl rfl

end Calls

section Runs

variable [UnitSigns α]

/-- Every call accounts for a sifted solver, whatever it answers. -/
theorem Ledger.accounts_perform (hs : s.Ledger) (h : Sifted E s) (limit : Nat)
    (call : SolverCall α) :
    Accounts E (callSolves limit s call) (s.perform limit call)
      (fun E p => Sifted E p.1) := by
  cases call with
  | add c => exact Accounts.map (hs.accounts_add h limit c)
  | addAll cs =>
      have hall := accounts_forEach (I := fun E s => Sifted E s ∧ s.Ledger)
        (fun E s hs c => (hs.2.accounts_add hs.1 limit c).with_ensures
          ((hs.2.add limit c).mono (fun _ hp => hp.1))) ⟨h, hs⟩ cs
      exact Accounts.map (hall.mono (fun _ _ hp => hp.1))
  | remove c => exact Accounts.map (hs.accounts_remove h limit c)
  | removeAll cs =>
      have hall := accounts_forEach (I := fun E s => Sifted E s ∧ s.Ledger)
        (fun E s hs c => (hs.2.accounts_remove hs.1 limit c).with_ensures
          ((hs.2.remove limit c).mono (fun _ hp => hp.1))) ⟨h, hs⟩ cs
      exact Accounts.map (hall.mono (fun _ _ hp => hp.1))
  | addEdit v strength => exact Accounts.map (hs.accounts_addEdit h limit v strength)
  | removeEdit v => exact Accounts.map (hs.accounts_removeEdit h limit v)
  | suggest v x => exact Accounts.map (hs.accounts_suggest h limit v x)
  | flush => exact accounts_ok (h.of_rows rfl rfl rfl)
  | reset => exact accounts_ok (sifted_empty E s.settings)
  | hasConstraint c => exact accounts_ok h
  | hasEditVariable v => exact accounts_ok h
  | hasVariable v => exact accounts_ok h
  | value v => exact accounts_ok h
  | constraints => exact accounts_ok h
  | settings => exact accounts_ok h

/-- So does every run. -/
theorem Ledger.accounts_run (hs : s.Ledger) (h : Sifted E s) (limit : Nat)
    (calls : List (SolverCall α)) :
    Accounts E (s.runSolves limit calls) (s.run limit calls) (fun E p => Sifted E p.1) := by
  induction calls generalizing E s with
  | nil => exact accounts_ok h
  | cons call rest ih =>
      refine ((hs.accounts_perform h limit call).with_ensures (hs.perform limit call)).bind ?_
      rintro E ⟨s', first⟩ - ⟨h', hs'⟩
      exact Accounts.map (ih hs' h')

end Runs

section Results

variable {s : Solver Binary64} {calls : List (SolverCall Binary64)}
  {answers : List (SolverAnswer Binary64)}

/-- Solving an equation may leave cells that count as zero, and nothing else does.
After every run the objectives have no such cell, and neither has the row of any new
constraint; every such cell of a row was left there by a solve for the symbol of the
row; and every solve divides by a coefficient that does not count as zero, unless an
earlier solve left it.  So if no solve of a run leaves such a cell, then there is none,
and no pivot is on a coefficient that counts as zero. -/
theorem specks_are_left_by_solving (settings : Settings Binary64) (limit : Nat)
    (hrun : (empty settings).run limit calls = .ok (s, answers)) :
    (s.objective.specks = [] ∧ (∀ r ∈ s.artificial, r.specks = []) ∧
      ∀ c, (s.createRow c).1.specks = []) ∧
    (∀ b ∈ s.tableau.basics, ∀ c ∈ b.2.specks,
      ∃ e ∈ (empty settings).runSolves limit calls, e.symbol = b.1 ∧ c ∈ e.result.specks) ∧
    (∀ before e after, (empty settings).runSolves limit calls = before ++ e :: after →
      ∃ a, e.equation.get? e.symbol = some a ∧ (Scalar.nearZero a = true →
        ∃ d ∈ before, (e.symbol, a) ∈ d.result.specks)) ∧
    ((∀ e ∈ (empty settings).runSolves limit calls, e.result.specks = []) →
      (∀ b ∈ s.tableau.basics, b.2.specks = []) ∧
      ∀ e ∈ (empty settings).runSolves limit calls,
        ∃ a, e.equation.get? e.symbol = some a ∧ Scalar.nearZero a = false) := by
  obtain ⟨hgrounded, hsifted⟩ := (ledger_empty settings).accounts_run
    (sifted_empty [] settings) limit calls
  have hs : Sifted ((empty settings).runSolves limit calls) s := hsifted _ hrun
  have hpivots : ∀ before e after,
      (empty settings).runSolves limit calls = before ++ e :: after →
        ∃ a, e.equation.get? e.symbol = some a ∧ (Scalar.nearZero a = true →
          ∃ d ∈ before, (e.symbol, a) ∈ d.result.specks) := by
    intro before e after hlog
    obtain ⟨a, ha, hleft⟩ := (hlog ▸ hgrounded).grounded
    refine ⟨a, ha, fun hz => ?_⟩
    obtain ⟨x, d, hd, -, hc⟩ := hleft hz
    exact ⟨d, hd, hc⟩
  refine ⟨⟨hs.objective, hs.artificial, specks_createRow s⟩, hs.rows, hpivots,
    fun hclean => ⟨fun b hb => ?_, fun e he => ?_⟩⟩
  · rw [List.eq_nil_iff_forall_not_mem]
    intro c hc
    obtain ⟨e, he, -, hm⟩ := hs.rows b hb c hc
    rw [hclean e he] at hm
    cases hm
  · obtain ⟨before, after, hlog⟩ := List.append_of_mem he
    obtain ⟨a, ha, hleft⟩ := hpivots before e after hlog
    refine ⟨a, ha, Bool.eq_false_iff.mpr (fun hz => ?_)⟩
    obtain ⟨d, hd, hm⟩ := hleft hz
    rw [hclean d (hlog ▸ List.mem_append_left _ hd)] at hm
    cases hm

/-- Two widths are opposite, up to a factor that is large. -/
def opposite : Constraint Binary64 :=
  ⟨"opposite", ⟨[.symbolic ⟨.entity ⟨0⟩, .width⟩ (.ofDecimal 1 9),
    .symbolic ⟨.entity ⟨1⟩, .width⟩ (.ofDecimal 1 9)], Scalar.zero⟩, .equalTo, .required⟩

/-- One of them is five. -/
def fiveWide : Constraint Binary64 :=
  ⟨"five", ⟨[.symbolic ⟨.entity ⟨0⟩, .width⟩ (.ofDecimal 1 0)], .neg (.ofDecimal 5 0)⟩,
    .equalTo, .required⟩

/-- Solving for a width with a large coefficient leaves a speck in its row. -/
theorem large_coefficient_leaves_speck :
    ∃ (s : Solver Binary64) (answers : List (SolverAnswer Binary64)),
      (empty .standard).run 9 [.add opposite, .add fiveWide] = .ok (s, answers) ∧
      (∃ b ∈ s.tableau.basics, b.2.specks ≠ []) ∧
      s.objective.specks = [] ∧
      ∀ b ∈ s.tableau.basics, ∀ c ∈ b.2.specks,
        ∃ e ∈ (empty .standard).runSolves 9 [.add opposite, .add fiveWide],
          e.symbol = b.1 ∧ c ∈ e.result.specks := by
  have hchain : ((empty .standard : Solver Binary64).run 9
      [.add opposite, .add fiveWide]).toOption.any (fun p =>
        p.1.tableau.basics.any (fun b => !b.2.specks.isEmpty)) = true := by
    decide +kernel
  obtain ⟨⟨s, answers⟩, hrun, hspeck⟩ := exists_ok_of_any hchain
  obtain ⟨b, hb, hspeck⟩ := List.any_eq_true.mp hspeck
  obtain ⟨⟨hobjective, -⟩, hrows, -⟩ := specks_are_left_by_solving .standard 9 hrun
  exact ⟨s, answers, hrun, ⟨b, hb, by simpa using hspeck⟩, hobjective, hrows⟩

/-- The removal of the first equality pivots on that speck and gives the row of the
width up that the other equality holds, which is still installed but no longer true. -/
theorem removal_pivots_on_speck :
    ∃ (s u : Solver Binary64) (answers answers' : List (SolverAnswer Binary64))
      (installed : Constraint Binary64) (tag : Tag) (leaving : Symbol) (r : Row Binary64),
      (empty .standard).run 9 [.add opposite, .add fiveWide] = .ok (s, answers) ∧
      s.value ⟨.entity ⟨0⟩, .width⟩ = .ofDecimal 5 0 ∧
      s.constraints.find? opposite = some (installed, tag) ∧
      withRow s.tableau (markerLeaving? s.tableau tag.marker) = some (leaving, r) ∧
      Scalar.nearZero (r.coefficient tag.marker) = true ∧
      s.run 9 [.remove opposite] = .ok (u, answers') ∧
      u.hasConstraint opposite = false ∧ u.hasConstraint fiveWide = true ∧
      u.value ⟨.entity ⟨0⟩, .width⟩ = Scalar.zero := by
  have hchain : ((empty .standard : Solver Binary64).run 9
      [.add opposite, .add fiveWide]).toOption.any (fun p =>
        decide (p.1.value ⟨.entity ⟨0⟩, .width⟩ = .ofDecimal 5 0) &&
        (p.1.constraints.find? opposite).any (fun entry =>
          (withRow p.1.tableau (markerLeaving? p.1.tableau entry.2.marker)).any (fun b =>
            Scalar.nearZero (b.2.coefficient entry.2.marker))) &&
        (p.1.run 9 [.remove opposite]).toOption.any (fun q =>
          !q.1.hasConstraint opposite && q.1.hasConstraint fiveWide &&
          decide (q.1.value ⟨.entity ⟨0⟩, .width⟩ = Scalar.zero))) = true := by
    decide +kernel
  obtain ⟨⟨s, answers⟩, hrun, hrest⟩ := exists_ok_of_any hchain
  simp only [Bool.and_eq_true, decide_eq_true_eq] at hrest
  obtain ⟨⟨hfive, hpivot⟩, hremoved⟩ := hrest
  obtain ⟨⟨installed, tag⟩, hf, hpivot⟩ := (Option.any_eq_true _ _).mp hpivot
  obtain ⟨⟨leaving, r⟩, hrow, hzero⟩ := (Option.any_eq_true _ _).mp hpivot
  obtain ⟨⟨u, answers'⟩, hremove, hrest⟩ := exists_ok_of_any hremoved
  simp only [Bool.and_eq_true, Bool.not_eq_true', decide_eq_true_eq] at hrest
  exact ⟨s, u, answers, answers', installed, tag, leaving, r, hrun, hfive, hf, hrow, hzero,
    hremove, hrest.1.1, hrest.1.2, hrest.2⟩

end Results

end Solver
end Tether
