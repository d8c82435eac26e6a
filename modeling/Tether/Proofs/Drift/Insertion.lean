import Tether.Proofs.Drift.Probing
import Tether.Proofs.Solver.References

/-!
# Drift when constraints are added

An addition makes the equalities of before drift by what its eliminations lose.  The new
equality starts with what is lost while its row is made and taken in.
-/

namespace Tether

open Simplex

namespace Solver

variable {s u w : Solver Coarse} {c : Constraint Coarse} {tag : Tag} {j k : Nat} {F : Reach}
  {l l' : List (Constraint Coarse × Tag)}

section Lists

theorem Drifts.append (h : Drifts k F s l) (h' : Drifts k F s l') : Drifts k F s (l ++ l') := by
  refine ⟨fun n hn σ M hM hσ hb e he hbind => ?_⟩
  rcases List.mem_append.mp he with he | he
  · exact h.bound n hn σ M hM hσ hb e he hbind
  · exact h'.bound n hn σ M hM hσ hb e he hbind

/-- Drift is a matter of the rows and of the symbols of the variables. -/
theorem Drifts.congr (h : Drifts k F s l) (hrows : ∀ σ, w.tableau.Meets σ → s.tableau.Meets σ)
    (hcount : s.tableau.symbolCount ≤ w.tableau.symbolCount)
    (hsymbols : ∀ e ∈ l, e.1.Binding → ∀ t ∈ e.1.expression.terms,
      w.symbol? t.unknown = s.symbol? t.unknown) : Drifts k F w l := by
  have hback : Retraces 0 Reach.id ∅ s w := retraces_of_meets hcount
    (fun σ _ _ hσ hb => ⟨σ, hrows σ hσ, hb, fun _ _ => rfl⟩)
  have hdrifts := h.retrace hback (fun _ _ _ => Set.notMem_empty _)
    (fun e he hbind t ht => ⟨hsymbols e he hbind t ht, fun _ _ => Set.notMem_empty _⟩)
  rwa [Nat.add_zero, Reach.comp_id] at hdrifts

/-- What is lost while the variables keep their symbols. -/
theorem Drifts.lose (h : Drifts k F s l) (hback : Retraces j Reach.id ∅ s w)
    (hunknowns : w.unknowns = s.unknowns) : Drifts (k + j) F w l := by
  have hdrifts := h.retrace hback (fun _ _ _ => Set.notMem_empty _)
    (fun _ _ _ t _ => ⟨by rw [symbol?, symbol?, hunknowns], fun _ _ => Set.notMem_empty _⟩)
  rwa [Reach.comp_id] at hdrifts

/-- Lowering the objective makes equalities drift by what its limit allows. -/
theorem Drifts.reoptimize {ε : Type} (h : Drifts k F s l) (hp : s.Proper) (limit : Nat)
    (internal : String → ε) : Ensures (reoptimize limit internal s)
      (fun p => Drifts (k + limit) F p.1 l ∧ p.1.constraints = s.constraints) := by
  refine ensures_reoptimize (((hp.pivoted_optimize .primary limit).and
    ((rowStable_books s).optimize rfl .primary limit)).mono ?_)
  rintro p ⟨hpivoted, hbooks⟩
  simp only [books, Prod.mk.injEq] at hbooks
  obtain ⟨-, hconstraints, hunknowns, -⟩ := hbooks
  have hdrifts := h.lose hpivoted.retraces hunknowns
  exact ⟨fun _ => ⟨⟨hdrifts.bound⟩, hconstraints⟩, fun _ _ => ⟨hdrifts, hconstraints⟩⟩

end Lists

section Drafting

/-- The variables of an installed equality are known. -/
theorem Ledger.contains_of_binding (hl : s.Ledger) {e : Constraint Coarse × Tag}
    (he : e ∈ s.constraints.entries) (hbind : e.1.Binding) {t : Term Coarse}
    (ht : t ∈ e.1.expression.terms) : s.unknowns.contains t.unknown = true :=
  hl.counted.demanded _ (uses_pos_iff.mpr ⟨e.1, OrderedMap.mem_keys_of_mem he, t, ht,
    Term.refersTo_unknown (hbind.kept t ht)⟩)

/-- Making symbols loses nothing. -/
theorem Drifts.of_drafts (h : Drifts k F s s.constraints.entries) (hl : s.Ledger)
    (hd : Drafts s u) : Drifts k F u s.constraints.entries :=
  h.congr (fun _ => hd.meets_iff.mp) hd.tableau.symbolCount_le
    (fun _ he hbind _ ht => hd.symbol?_eq (hl.contains_of_binding he hbind ht))

/-- What a new equality comes to at values that are close to others at which its row is
small. -/
theorem abs_misfit_createRow_of_close (hl : s.Ledger) (hbind : c.Binding) {σ τ : Symbol → Rat}
    {d M : Rat} (hd : 0 ≤ d) (hτ : s.tableau.Meets τ) (hb : Row.Bounded M τ)
    (hclose : ∀ x, |τ x - σ x| ≤ d) (hsmall : |(s.createRow c).1.exact.eval τ| ≤ d) :
    |(s.createRow c).2.2.misfit σ (c, (s.createRow c).2.1)| ≤ c.expression.terms.length *
      ((s.createRow c).2.2.tableau.symbolCount * (Coarse.epsilon * M)) +
        (c.expression.weight + 1) * d + d := by
  have hrow := abs_misfit_createRow_le hl hbind hb hτ
  have hmove := abs_misfit_sub_le (s := (s.createRow c).2.2) (e := (c, (s.createRow c).2.1))
    (X := ∅) hd (fun x _ => hclose x) (Set.notMem_empty _) (fun _ _ _ _ => Set.notMem_empty _)
  have hsum : (s.createRow c).2.2.misfit σ (c, (s.createRow c).2.1) =
      (s.createRow c).2.2.misfit τ (c, (s.createRow c).2.1) -
        ((s.createRow c).2.2.misfit τ (c, (s.createRow c).2.1) -
          (s.createRow c).2.2.misfit σ (c, (s.createRow c).2.1)) := by ring
  rw [hsum]
  refine (abs_sub _ _).trans ?_
  linarith

/-- A required equality whose row has been taken in has not drifted far. -/
theorem Takes.drifts (hl : s.Ledger)
    (htakes : c.Binding → Takes j (s.createRow c).1 (s.createRow c).2.2 w)
    (hunknowns : w.unknowns = (s.createRow c).2.2.unknowns) :
    Drifts (j + 1) Reach.id w [(c, (s.createRow c).2.1)] := by
  refine ⟨fun n hn σ M hM hσ hb e he hbind => ?_⟩
  obtain rfl := List.mem_singleton.mp he
  have htakes := htakes hbind
  have hM₀ : 0 ≤ M := zero_le_one.trans hM
  have hε := Coarse.epsilon_pos
  have hd : 0 ≤ (growth n ^ j - 1) * M := mul_nonneg (growth_pow_sub_one_nonneg n j) hM₀
  obtain ⟨τ, hτ, hclose, hsmall⟩ := htakes.back n hn σ M hM hσ hb
  have hbτ := bounded_of_losses hb hclose
  have hsame : w.misfit σ (c, (s.createRow c).2.1) =
      (s.createRow c).2.2.misfit σ (c, (s.createRow c).2.1) :=
    misfit_congr (fun t _ => by rw [symbol?, symbol?, hunknowns])
  rw [hsame]
  refine (abs_misfit_createRow_of_close hl hbind hd ((s.drafts_createRow c).meets_iff.mp hτ) hbτ
    hclose hsmall).trans ?_
  -- what the terms lose counts as one more elimination
  have hcount : ((s.createRow c).2.2.tableau.symbolCount : Rat) ≤ n :=
    Nat.cast_le.mpr (htakes.count.trans hn)
  have hterms : (s.createRow c).2.2.tableau.symbolCount * (Coarse.epsilon * (growth n ^ j * M)) ≤
      (growth n ^ (j + 1) - 1) * M := by
    rw [growth_pow_succ_sub_one]
    have hpow : 0 ≤ growth n ^ j := zero_le_one.trans (one_le_growth_pow n j)
    refine le_add_of_nonneg_of_le hd ?_
    gcongr
  have hless := growth_pow_sub_one_mul_le n hM₀ (Nat.le_succ j)
  have hweight := c.expression.weight_nonneg
  calc _ ≤ c.expression.terms.length * ((growth n ^ (j + 1) - 1) * M) +
        (c.expression.weight + 1) * ((growth n ^ (j + 1) - 1) * M) +
          (growth n ^ (j + 1) - 1) * M := by gcongr
    _ = c.expression.size * ((growth n ^ (j + 1) - 1) * Reach.id.bound M) := by
        rw [Expression.size, Reach.bound_id]
        ring

end Drafting

section Installing

/-- Counting references leaves the symbols of the variables as they are. -/
theorem map_get?_countReference (f : Nat → Nat)
    (m : OrderedMap Variable (VariableEntry Coarse)) (t : Term Coarse) (v : Variable) :
    ((countReference f m t).get? v).map (·.symbol) = (m.get? v).map (·.symbol) := by
  unfold countReference
  split
  · rfl
  · exact OrderedMap.map_get?_modify (f := fun e => { e with references := f e.references })
      (g := fun e => e.symbol) (fun _ => rfl) m _ v

theorem symbol?_retainVariables (u : Solver Coarse) (c : Constraint Coarse) (v : Variable) :
    (u.retainVariables c).symbol? v = u.symbol? v :=
  retainVariables_induction (motive := fun m => (m.get? v).map (·.symbol) = u.symbol? v) rfl
    (fun m t hm => (map_get?_countReference _ m t v).trans hm) c

/-- What has been lost when a constraint is about to be put on the list. -/
structure Receives (k : Nat) (F : Reach) (s : Solver Coarse) (c : Constraint Coarse) (tag : Tag)
    (w : Solver Coarse) : Prop where
  proper : w.Proper
  constraints : w.constraints = s.constraints
  before : Drifts k F w s.constraints.entries
  own : Drifts k Reach.id w [(c, tag)]

/-- Installing a constraint makes equalities drift by what its limit allows. -/
theorem Receives.install (h : Receives k F s c tag w) (hc : s.hasConstraint c = false)
    (limit : Nat) : Ensures (install limit w c tag)
      (fun p => Drifts (k + limit) F p.1 p.1.constraints.entries) := by
  have hentries : (w.enlist c tag).constraints.entries = s.constraints.entries ++ [(c, tag)] := by
    show (w.constraints.insert c tag).entries = _
    rw [h.constraints]
    exact OrderedMap.entries_insert_of_not_contains hc tag
  have hall : Drifts k F w (w.enlist c tag).constraints.entries := by
    rw [hentries]
    exact h.before.append (h.own.mono (Nat.le_refl k) F.id_le (fun _ he => he))
  have henlisted : Drifts k F (w.enlist c tag) (w.enlist c tag).constraints.entries :=
    hall.congr (fun _ hσ => hσ) (Nat.le_refl _)
      (fun _ _ _ t _ => symbol?_retainVariables w c t.unknown)
  refine (henlisted.reoptimize (h.proper.of_rows rfl rfl rfl rfl) limit AddError.internal).mono ?_
  rintro p ⟨hdrifts, hsame⟩
  rwa [hsame]

end Installing

section Adding

/-- The subject of a row has a coefficient other than zero. -/
theorem coefficient_subject_ne_zero {r : Row Coarse} (hr : r.Solid) {x : Symbol}
    (hx : subject? r tag = some x) : r.exact.coefficient x ≠ 0 := by
  obtain ⟨d, hd, rfl⟩ := Option.map_eq_some_iff.mp hx
  have hin : ∀ d ∈ r.cells.filter (·.1.isExternal), r.exact.coefficient d.1 ≠ 0 :=
    fun d hd => hr.coefficient_ne_zero
      (Row.mem_symbols_iff.mpr ⟨d.2, List.mem_of_mem_filter hd⟩)
  rcases Option.or_eq_some_iff.mp hd with hd | ⟨-, hd⟩
  · exact hin d (List.mem_of_find?_eq_some hd)
  · rcases Option.or_eq_some_iff.mp hd with hd | ⟨-, hd⟩
    · exact hin d (List.mem_of_mem_head? hd)
    · obtain ⟨y, hy, rfl⟩ := Option.map_eq_some_iff.mp hd
      rw [Row.coefficient_exact]
      have hfree : isFreeSubject r y = true := List.find?_some hy
      exact Coarse.ne_zero_of_negative (Bool.and_eq_true_iff.mp hfree).2

variable (hl : s.Ledger) (h : Drifts k F s s.constraints.entries)
include hl h

/-- A solver that has taken the row of a constraint in may put it on the list. -/
theorem Drifts.receives (hw : w.Proper) (hback : Retraces j Reach.id ∅ (s.createRow c).2.2 w)
    (htakes : c.Binding → Takes j (s.createRow c).1 (s.createRow c).2.2 w)
    (hbooks : w.books = (s.createRow c).2.2.books) :
    Receives (k + (j + 1)) F s c (s.createRow c).2.1 w := by
  have hd := s.drafts_createRow c
  simp only [books, Prod.mk.injEq] at hbooks
  obtain ⟨-, hconstraints, hunknowns, -⟩ := hbooks
  exact ⟨hw, hconstraints.trans hd.constraints,
    ((h.of_drafts hl hd).lose hback hunknowns).mono (by omega) (le_refl F) (fun _ he => he),
    (Takes.drifts hl htakes hunknowns).mono (by omega) (le_refl _) (fun _ he => he)⟩

/-- A constraint is put on the list when its subject enters. -/
theorem Drifts.receives_enter {x : Symbol}
    (hx : x ∈ (s.createRow c).1.symbols ∨ x ∈ (s.createRow c).2.1.symbols)
    (hcoeff : c.Binding → (s.createRow c).1.exact.coefficient x ≠ 0) :
    Receives (k + 2) F s c (s.createRow c).2.1
      ((s.createRow c).2.2.enter x ((s.createRow c).1.solveFor x)) := by
  have hm := made_createRow hl c
  have hp : (s.createRow c).2.2.tableau.Parametric x :=
    hx.elim (hm.admits.parametric x) (hm.parametric x)
  exact h.receives hl (hm.ledger_enter hx).proper
    (hm.ledger.proper.retraces_enter hp (hm.admits.solveFor x))
    (fun hbind => hm.ledger.proper.takes_enter hm.admits (hcoeff hbind)) (books_enter _ _ _)

omit hl in
/-- Equalities that were there before an addition that is taken back have not drifted. -/
theorem Drifts.of_recalled (hrows : ∀ σ, w.tableau.Meets σ → (s.createRow c).2.2.tableau.Meets σ)
    (hcount : (s.createRow c).2.2.tableau.symbolCount ≤ w.tableau.symbolCount)
    (hconstraints : w.constraints = s.constraints) (hunknowns : w.unknowns = s.unknowns) :
    Drifts k F w w.constraints.entries := by
  have hd := s.drafts_createRow c
  rw [hconstraints]
  exact h.congr (fun σ hσ => hd.meets_iff.mp (hrows σ hσ))
    (hd.tableau.symbolCount_le.trans hcount)
    (fun _ _ _ _ _ => by rw [symbol?, symbol?, hunknowns])

/-- A probe makes equalities drift by what its limit and that of the addition allow. -/
theorem Drifts.installByProbe (hc : s.hasConstraint c = false) (limit : Nat) :
    Ensures (installByProbe limit (s.createRow c).2.2 s.unknowns.size c (s.createRow c).1
      (s.createRow c).2.1)
        (fun p => Drifts (k + (2 * limit + 3)) F p.1 p.1.constraints.entries) := by
  have hm := made_createRow hl c
  obtain ⟨hjournal, hadmits⟩ := hm.ledger_openJournal
  refine ensures_installByProbe ((((takes_probe hjournal.proper hadmits (solid_createRow s c)
    limit).and (hjournal.probe hadmits limit)).and
      (ensures_probe_recalls limit (s.createRow c).2.2 (s.createRow c).1)).mono ?_)
  rintro p ⟨⟨⟨htaken, hbroken⟩, hledger⟩, hrecalls, hbooks⟩
  have hkept := hbooks
  simp only [books, Prod.mk.injEq] at hbooks
  obtain ⟨-, hconstraints, hunknowns, -⟩ := hbooks
  refine ⟨fun hok => ?_, fun _ => ?_, fun why hwhy => ?_⟩
  · -- the journal does not matter to the rows
    have htakes : Takes (limit + 2) (s.createRow c).1 (s.createRow c).2.2 p.1.keepProbe :=
      ⟨(htaken hok).count, (htaken hok).back⟩
    have hreceives := h.receives hl (hledger.proper.withJournal none) htakes.retraces
      (fun _ => htakes) hkept
    exact (hreceives.install hc limit).mono
      (fun _ hp => hp.mono (by omega) (le_refl F) (fun _ he => he))
  · have htableau : (p.1.undoProbe (s.createRow c).2.2.objective s.unknowns.size).tableau =
        { (s.createRow c).2.2.tableau with
          journal := none, faulted := p.1.tableau.faulted } := hrecalls.rollback_eq
    have hunknowns' : (p.1.undoProbe (s.createRow c).2.2.objective s.unknowns.size).unknowns =
        s.unknowns := by
      have hforgotten := hm.drafts.unknowns_forgetAfter
      simpa only [undoProbe, forgetAfter, hunknowns] using hforgotten
    have hrecalled := h.of_recalled (c := c)
      (w := p.1.undoProbe (s.createRow c).2.2.objective s.unknowns.size) (fun σ hσ => ?_)
      (Nat.le_of_eq ?_) (hconstraints.trans hm.drafts.constraints) hunknowns'
    · exact hrecalled.mono (Nat.le_add_right k _) (le_refl F) (fun _ he => he)
    · rw [htableau] at hσ
      exact hσ
    · rw [htableau]
      rfl
  · have hback : Retraces limit Reach.id ∅ (s.createRow c).2.2 p.1.keepProbe :=
      ⟨(hbroken why hwhy).count, (hbroken why hwhy).back⟩
    have hdrifts := (h.of_drafts hl hm.drafts).lose hback hunknowns
    have hsame : p.1.keepProbe.constraints = s.constraints :=
      hconstraints.trans hm.drafts.constraints
    refine hdrifts.mono (by omega) (le_refl F) (fun e he => ?_)
    rwa [← hsame]

/-- An addition makes equalities drift by what its limit allows, whatever the answer is. -/
theorem Drifts.add (limit : Nat) (c : Constraint Coarse) : Ensures (s.add limit c)
    (fun p => Drifts (k + (2 * limit + 3)) F p.1 p.1.constraints.entries) := by
  have hm := made_createRow hl c
  have hinstall : ∀ w, Receives (k + 2) F s c (s.createRow c).2.1 w → s.hasConstraint c = false →
      Ensures (Solver.install limit w c (s.createRow c).2.1)
        (fun p => Drifts (k + (2 * limit + 3)) F p.1 p.1.constraints.entries) := by
    intro w hw hc
    exact (hw.install hc limit).mono
      (fun _ hp => hp.mono (by omega) (le_refl F) (fun _ he => he))
  refine ensures_add (fun _ => h.mono (by omega) (le_refl F) (fun _ he => he))
    (fun hc x hx => hinstall _ (h.receives_enter hl (subject?_mem hx)
      (fun _ => coefficient_subject_ne_zero (solid_createRow s c) hx)) hc)
    (fun hc _ _ => h.installByProbe hl hc limit)
    (fun hc _ _ => hinstall _ (h.receives_enter hl (Or.inr (by simp [Tag.symbols]))
      (fun hbind => coefficient_marker_ne_zero hl hbind.required hbind.equality)) hc)
    (fun _ _ _ _ => ?_)
  have hrecalled := h.of_recalled (c := c) (w := (s.createRow c).2.2.forgetAfter s.unknowns.size)
    (fun _ hσ => hσ) (Nat.le_refl _) hm.drafts.constraints hm.drafts.unknowns_forgetAfter
  exact hrecalled.mono (by omega) (le_refl F) (fun _ he => he)

end Adding

end Solver
end Tether
