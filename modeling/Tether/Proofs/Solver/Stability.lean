import Tether.Proofs.Solver.LedgerRuns

/-!
# Properties that calls keep

A property of solvers that additions, removals, suggestions and changes of the
edit variables keep is kept by every call, since every call is made of these.
Some properties get lost when a call breaks down; such a property is strict, and
to be idle is one.

Most properties of the books need no look at suggestions: a suggestion changes
nothing of the books but the edit variables.
-/

namespace Tether
namespace Solver

open Simplex

variable {α : Type} [Scalar α] {limit : Nat} {strict : Prop} {I : Solver α → Prop}
  {s : Solver α}

/-- A property that calls keep.  If it is strict, a call that breaks down may lose
it. -/
structure CallStable (limit : Nat) (strict : Prop) (I : Solver α → Prop) : Prop where
  add : ∀ {s : Solver α}, s.Ledger → I s → ∀ c, Ensures (s.add limit c)
    (fun p => (strict → Calm AddError.internal p.2) → I p.1)
  remove : ∀ {s : Solver α}, s.Ledger → I s → ∀ c, Ensures (s.remove limit c)
    (fun p => (strict → Calm RemoveError.internal p.2) → I p.1)
  suggest : ∀ {s : Solver α}, s.Ledger → I s → ∀ v x, Ensures (s.suggest limit v x)
    (fun p => (strict → Calm SuggestError.internal p.2) → I p.1)
  withEdits : ∀ {s : Solver α} edits, I s → I { s with edits := edits }
  reset : ∀ {s : Solver α}, I s → I s.reset

section Suggesting

/-- A suggestion changes nothing of the books but the edit variable that it is for, and of
that the value alone, whatever the answer is. -/
theorem ensures_suggest_books (s : Solver α) (limit : Nat) (v : Variable) (x : α) :
    Ensures (s.suggest limit v x) (fun p => p.1.settings = s.settings ∧
      p.1.constraints = s.constraints ∧ p.1.unknowns = s.unknowns ∧
      p.1.edits = s.edits.modify v (fun edit => { edit with constant := x })) := by
  refine ensures_suggest (fun hv => ⟨rfl, rfl, rfl, ?_⟩) (fun _ _ _ => ⟨rfl, rfl, rfl, rfl⟩) ?_
  · exact (OrderedMap.modify_of_not_contains (OrderedMap.get?_eq_none_iff.mp hv) _).symm
  · intro edit _
    refine (ensures_dualOptimize_books _ limit).mono ?_
    intro p hp
    have hbooks := hp.trans (books_shiftEdit _ _ _)
    simp only [books, Prod.mk.injEq] at hbooks
    exact hbooks

/-- A property of the settings, the constraints and the variables is kept by calls if
additions and removals keep it. -/
theorem CallStable.of_books
    (hcongr : ∀ {s u : Solver α}, u.settings = s.settings → u.constraints = s.constraints →
      u.unknowns = s.unknowns → I s → I u)
    (hadd : ∀ {s : Solver α}, s.Ledger → I s → ∀ c, Ensures (s.add limit c)
      (fun p => (strict → Calm AddError.internal p.2) → I p.1))
    (hremove : ∀ {s : Solver α}, s.Ledger → I s → ∀ c, Ensures (s.remove limit c)
      (fun p => (strict → Calm RemoveError.internal p.2) → I p.1))
    (hreset : ∀ {s : Solver α}, I s → I s.reset) : CallStable limit strict I where
  add := hadd
  remove := hremove
  suggest := fun {s} _ hs v x => (ensures_suggest_books s limit v x).mono
    (fun _ hp _ => hcongr hp.1 hp.2.1 hp.2.2.1 hs)
  withEdits := fun {s} _ hs => hcongr (s := s) rfl rfl rfl hs
  reset := hreset

end Suggesting

section Repeating

/-- What each of several additions keeps, all of them keep.  The ledger is in order
throughout. -/
theorem Ledger.addAll_keeps {cs : List (Constraint α)} (hl : s.Ledger) (hs : I s)
    (hadd : ∀ {s : Solver α}, s.Ledger → I s → ∀ c ∈ cs, Ensures (s.add limit c)
      (fun p => (strict → Calm AddError.internal p.2) → I p.1)) :
    Ensures (s.addAll limit cs)
      (fun p => (strict → Calm AddError.internal p.2) → I p.1) := by
  refine ensures_forEach (I := fun s => s.Ledger ∧ I s) ?_ (fun _ hs _ => hs.2) ⟨hl, hs⟩
  intro s hs c hc
  refine ((hs.1.add limit c).and (hadd hs.1 hs.2 c hc)).mono ?_
  intro p hp
  exact ⟨fun hok => ⟨hp.1.1, hp.2 (fun _ => hok ▸ calm_ok _)⟩, fun _ _ => hp.2⟩

/-- What each of several removals keeps, all of them keep. -/
theorem Ledger.removeAll_keeps {cs : List (Constraint α)} (hl : s.Ledger) (hs : I s)
    (hremove : ∀ {s : Solver α}, s.Ledger → I s → ∀ c ∈ cs, Ensures (s.remove limit c)
      (fun p => (strict → Calm RemoveError.internal p.2) → I p.1)) :
    Ensures (s.removeAll limit cs)
      (fun p => (strict → Calm RemoveError.internal p.2) → I p.1) := by
  refine ensures_forEach (I := fun s => s.Ledger ∧ I s) ?_ (fun _ hs _ => hs.2) ⟨hl, hs⟩
  intro s hs c hc
  refine ((hs.1.remove limit c).and (hremove hs.1 hs.2 c hc)).mono ?_
  intro p hp
  exact ⟨fun hok => ⟨hp.1.1, hp.2 (fun _ => hok ▸ calm_ok _)⟩, fun _ _ => hp.2⟩

/-- What each of several additions keeps whatever its answer is, all of them keep. -/
theorem Ledger.addAll_maintains {cs : List (Constraint α)} (hl : s.Ledger) (hs : I s)
    (hadd : ∀ {s : Solver α}, s.Ledger → I s → ∀ c ∈ cs,
      Ensures (s.add limit c) (fun p => I p.1)) :
    Ensures (s.addAll limit cs) (fun p => I p.1) :=
  (hl.addAll_keeps hs (fun hl hs c hc => (hadd hl hs c hc).mono (fun _ hp _ => hp))).mono
    (fun _ hp => hp (fun hstrict : False => hstrict.elim))

/-- What each of several removals keeps whatever its answer is, all of them keep. -/
theorem Ledger.removeAll_maintains {cs : List (Constraint α)} (hl : s.Ledger) (hs : I s)
    (hremove : ∀ {s : Solver α}, s.Ledger → I s → ∀ c ∈ cs,
      Ensures (s.remove limit c) (fun p => I p.1)) :
    Ensures (s.removeAll limit cs) (fun p => I p.1) :=
  (hl.removeAll_keeps hs (fun hl hs c hc => (hremove hl hs c hc).mono (fun _ hp _ => hp))).mono
    (fun _ hp => hp (fun hstrict : False => hstrict.elim))

end Repeating

section Calls

theorem CallStable.addEdit (h : CallStable limit strict I) (hl : s.Ledger) (hs : I s)
    (v : Variable) (strength : Strength α) :
    Ensures (s.addEdit limit v strength)
      (fun p => (strict → Calm EditError.internal p.2) → I p.1) := by
  refine ensures_addEdit (fun _ _ => hs) (fun _ _ => hs) ?_
  intro _ _
  refine (h.add hl hs _).mono ?_
  intro p hp
  have hdone : p.2 = .ok () → I p.1 := fun hok => hp (fun _ => hok ▸ calm_ok _)
  refine ⟨fun _ hok _ _ => h.withEdits _ (hdone hok), fun hok _ _ _ => hdone hok, ?_⟩
  intro e he hcalm
  refine hp (fun hstrict => ?_)
  rw [he]
  exact calm_of_mapError (f := AddError.toEdit) (fun _ => rfl) (hcalm hstrict)

theorem CallStable.removeEdit (h : CallStable limit strict I) (hl : s.Ledger) (hs : I s)
    (v : Variable) : Ensures (s.removeEdit limit v)
      (fun p => (strict → Calm EditError.internal p.2) → I p.1) := by
  refine ensures_removeEdit (fun _ _ => hs) ?_
  intro edit _
  have hledger := hl.withEdits (hl.held.erase v)
  refine (h.remove hledger (h.withEdits _ hs) edit.constraint).mono ?_
  intro p hp hcalm
  exact hp (fun hstrict => calm_of_mapError (fun _ => rfl) (hcalm hstrict))

theorem CallStable.addAll (h : CallStable limit strict I) (hl : s.Ledger) (hs : I s)
    (cs : List (Constraint α)) : Ensures (s.addAll limit cs)
      (fun p => (strict → Calm AddError.internal p.2) → I p.1) :=
  hl.addAll_keeps hs (fun hl hs c _ => h.add hl hs c)

theorem CallStable.removeAll (h : CallStable limit strict I) (hl : s.Ledger) (hs : I s)
    (cs : List (Constraint α)) : Ensures (s.removeAll limit cs)
      (fun p => (strict → Calm RemoveError.internal p.2) → I p.1) :=
  hl.removeAll_keeps hs (fun hl hs c _ => h.remove hl hs c)

/-- What calls keep, every call keeps; of a flush this has to be known besides. -/
theorem CallStable.perform (h : CallStable limit strict I) (hl : s.Ledger) (hs : I s)
    (call : SolverCall α) (hflush : call = .flush → I s.flush.1) :
    Ensures (s.perform limit call)
      (fun p => (strict → p.2.isInternal = false) → I p.1) := by
  have hanswer : ∀ {ε : Type} {internal : String → ε} {wrap : ε → SolverError}
      {outcome : Outcome (Solver α) ε},
      (∀ e, (wrap e).isInternal = true ↔ ∃ text, e = internal text) →
      Ensures outcome (fun p => (strict → Calm internal p.2) → I p.1) →
      Ensures (answer wrap outcome) (fun p => (strict → p.2.isInternal = false) → I p.1) := by
    intro ε internal wrap outcome hw ho
    refine Ensures.map (ho.mono (fun p hp hcalm => hp (fun hstrict => ?_)))
    exact (isInternal_ofExcept_eq_false_iff hw).mp (hcalm hstrict)
  cases call with
  | add c => exact hanswer (by simp [SolverError.isInternal_iff]) (h.add hl hs c)
  | addAll cs => exact hanswer (by simp [SolverError.isInternal_iff]) (h.addAll hl hs cs)
  | remove c => exact hanswer (by simp [SolverError.isInternal_iff]) (h.remove hl hs c)
  | removeAll cs => exact hanswer (by simp [SolverError.isInternal_iff]) (h.removeAll hl hs cs)
  | addEdit v strength =>
      exact hanswer (by simp [SolverError.isInternal_iff]) (h.addEdit hl hs v strength)
  | removeEdit v => exact hanswer (by simp [SolverError.isInternal_iff]) (h.removeEdit hl hs v)
  | suggest v x => exact hanswer (by simp [SolverError.isInternal_iff]) (h.suggest hl hs v x)
  | flush => exact ensures_ok (fun _ => hflush rfl)
  | reset => exact ensures_ok (fun _ => h.reset hs)
  | hasConstraint c => exact ensures_ok (fun _ => hs)
  | hasEditVariable v => exact ensures_ok (fun _ => hs)
  | hasVariable v => exact ensures_ok (fun _ => hs)
  | value v => exact ensures_ok (fun _ => hs)
  | constraints => exact ensures_ok (fun _ => hs)
  | settings => exact ensures_ok (fun _ => hs)

/-- What every call keeps, flushes included, a run keeps; if it is strict, a run
without breakdowns. -/
theorem CallStable.run (h : CallStable limit strict I) (hl : s.Ledger) (hs : I s)
    (hflush : ∀ {s : Solver α}, I s → I s.flush.1) (calls : List (SolverCall α)) :
    Ensures (s.run limit calls)
      (fun p => (strict → ∀ a ∈ p.2, a.isInternal = false) → I p.1) := by
  have hstep : ∀ s : Solver α, s.Ledger ∧ I s → ∀ call ∈ calls, Ensures (s.perform limit call)
      (fun p => (strict → p.2.isInternal = false) → p.1.Ledger ∧ I p.1) := by
    intro s hs call _
    refine ((hs.1.perform limit call).and
      (h.perform hs.1 hs.2 call (fun _ => hflush hs.2))).mono ?_
    exact fun _ hp hcalm => ⟨hp.1, hp.2 hcalm⟩
  refine (ensures_run (A := fun a => strict → a.isInternal = false) limit hstep
    ⟨hl, hs⟩).mono ?_
  exact fun _ hp hcalm => (hp (fun a ha hstrict => hcalm hstrict a ha)).2

end Calls

section Idling

/-- Calls that do not break down leave the solver idle. -/
theorem callStable_idle (limit : Nat) : CallStable limit True (Idle : Solver α → Prop) where
  add := fun _ hs c => (hs.add limit c).mono (fun _ hp hcalm => hp (hcalm trivial))
  remove := fun _ hs c => (hs.remove limit c).mono (fun _ hp hcalm => hp (hcalm trivial))
  suggest := fun _ hs v x =>
    (hs.suggest limit v x).mono (fun _ hp hcalm => hp (hcalm trivial))
  withEdits := fun _ hs => ⟨hs.artificial, hs.journal, hs.infeasible⟩
  reset := fun {s} _ => idle_empty s.settings

/-- A run without breakdowns ends in an idle solver. -/
theorem idle_run (settings : Settings α) (limit : Nat) (calls : List (SolverCall α)) :
    Ensures ((empty settings).run limit calls)
      (fun p => (∀ a ∈ p.2, a.isInternal = false) → p.1.Idle) := by
  refine ((callStable_idle limit).run (ledger_empty settings) (idle_empty settings) ?_
    calls).mono (fun _ hp hcalm => hp (fun _ => hcalm))
  exact fun hs => ⟨hs.artificial, hs.journal, hs.infeasible⟩

end Idling

end Solver
end Tether
