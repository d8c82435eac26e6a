import Tether.Proofs.Solver.Effects
import Tether.Proofs.Solver.Presence

/-!
# What holds an edit variable

Two maps of a solver tell of the constraint behind an edit variable: the list of
constraints has its tag, and so has the entry of the edit variable.  The two agree after
every call, whatever it answers, since

* an edit variable is entered only once its constraint stands on the list;
* a removal ends the edit variable that its constraint held, in whatever way the constraint
  came to be removed.

Hence the two failures that report a constraint that is missing behind an edit variable
never happen.

A constraint that was on the list before any edit variable could be held by it never
holds one, so no end of an edit variable takes it out.
-/

namespace Tether

open Simplex

variable {α : Type} [Scalar α]

section Listed

namespace Solver

variable {s : Solver α} {c : Constraint α} {tag : Tag}

/-- A constraint on the list is found under its own content. -/
theorem Ledger.find?_of_mem (h : s.Ledger) (hm : (c, tag) ∈ s.constraints.entries) :
    s.constraints.find? c = some (c, tag) := by
  cases hf : s.constraints.find? c with
  | none =>
      have hc := List.find?_eq_none.mp hf (c, tag) hm
      exact absurd (Constraint.beq_refl c) hc
  | some e =>
      obtain ⟨he, hbeq⟩ := OrderedMap.mem_of_find? hf
      rw [h.tagged.eq_of_beq he hm hbeq]

end Solver

end Listed

section Naming

/-- Whether a call takes a constraint out that it names. -/
def SolverCall.TakesOut (c : Constraint α) : SolverCall α → Prop
  | .remove d => (d == c) = true
  | .removeAll ds => ∃ d ∈ ds, (d == c) = true
  | .reset => True
  | _ => False

/-- A call that takes nothing out by name takes nothing out, unless it ends an edit
variable. -/
theorem SolverCall.spares_or_removeEdit {c : Constraint α} {call : SolverCall α}
    (h : ¬ call.TakesOut c) : call.Spares c ∨ ∃ v, call = .removeEdit v := by
  cases call with
  | remove d => exact .inl (by simpa [TakesOut, Spares] using h)
  | removeAll ds => exact .inl (by simpa [TakesOut, Spares] using h)
  | removeEdit v => exact .inr ⟨v, rfl⟩
  | reset => exact absurd trivial h
  | _ => exact .inl trivial

end Naming

namespace Solver

variable {s u : Solver α} {c : Constraint α} {v : Variable} {limit : Nat}

section Removing

/-- No edit variable is held by a constraint that was removed. -/
theorem Ledger.remove_ends (h : s.Ledger) (limit : Nat) (c : Constraint α) :
    Ensures (s.remove limit c)
      (fun p => ∀ e ∈ p.1.edits.entries, (e.2.constraint == c) = false) := by
  refine (h.remove_edits limit c).mono ?_
  intro p hedits e he
  rw [hedits] at he
  simpa using (List.mem_filter.mp he).2

end Removing

section Answers

/-- What an optimization that fails reports is a breakdown. -/
theorem ensures_reoptimize_answer {ε : Type} (s : Solver α) (limit : Nat)
    (internal : String → ε) :
    Ensures (reoptimize limit internal s)
      (fun p => ∀ e, p.2 = .error e → ∃ why : Breakdown, e = internal why.message) := by
  refine ensures_reoptimize (fun p _ => ⟨fun _ e he => (by cases he), fun why _ e he => ?_⟩)
  exact ⟨why, (Except.error.inj he).symm⟩

/-- The failures of an addition that are no rejection are breakdowns. -/
theorem ensures_add_answer (s : Solver α) (limit : Nat) (c : Constraint α) :
    Ensures (s.add limit c) (fun p => ∀ text, p.2 = .error (.internal text) →
      ∃ why : Breakdown, text = why.message) := by
  have hinstall : ∀ (u : Solver α) (tag : Tag), Ensures (install limit u c tag)
      (fun p => ∀ text, p.2 = .error (.internal text) → ∃ why : Breakdown, text = why.message) := by
    intro u tag
    refine (ensures_reoptimize_answer _ limit AddError.internal).mono ?_
    intro p hp text htext
    obtain ⟨why, hwhy⟩ := hp _ htext
    exact ⟨why, AddError.internal.inj hwhy⟩
  refine ensures_add (fun _ text h => by cases h) (fun _ _ _ => hinstall _ _) ?_
    (fun _ _ _ => hinstall _ _) (fun _ _ _ _ text h => by cases h)
  intro _ _ _
  refine ensures_installByProbe (fun p _ => ⟨fun _ => hinstall _ _, ?_, ?_⟩)
  · intro _ text htext
    cases htext
  · intro why _ text htext
    exact ⟨why, (AddError.internal.inj (Except.error.inj htext)).symm⟩

/-- A constraint that is on the list is not called unknown. -/
theorem ensures_remove_answer (hc : s.hasConstraint c = true) (limit : Nat) :
    Ensures (s.remove limit c)
      (fun p => ∀ e, p.2 = .error e → ∃ why : Breakdown, e = .internal why.message) := by
  refine ensures_remove (fun hf => ?_) (fun _ _ => ensures_reoptimize_answer _ limit _)
  rw [hasConstraint, ← OrderedMap.isSome_get?, OrderedMap.get?, hf] at hc
  cases hc

/-- Beginning an edit breaks down only if the addition of its constraint does, or if that
is rejected. -/
theorem ensures_addEdit_answer (s : Solver α) (limit : Nat) (v : Variable)
    (strength : Strength α) :
    Ensures (s.addEdit limit v strength) (fun p => ∀ text, p.2 = .error (.internal text) →
      text = "non-required edit constraint rejected" ∨ ∃ why : Breakdown, text = why.message) := by
  refine ensures_addEdit (fun _ text h => by cases h) (fun _ text h => by cases h) (fun _ _ => ?_)
  refine ((ensures_add_present s limit _).and (ensures_add_answer s limit _)).mono ?_
  rintro p ⟨hpresent, hanswer⟩
  refine ⟨fun _ _ _ text h => (by cases h), fun hok hlost => ?_, fun e he text htext => ?_⟩
  · exact absurd hlost (get?_ne_none (hpresent (.inl hok)))
  · cases e with
    | duplicateConstraint => cases htext
    | unsatisfiableConstraint =>
        exact .inl (EditError.internal.inj (Except.error.inj htext)).symm
    | internal detail =>
        obtain rfl : detail = text := EditError.internal.inj (Except.error.inj htext)
        exact .inr (hanswer detail he)

/-- Ending an edit breaks down only if the removal of its constraint does. -/
theorem Ledger.removeEdit_answer (h : s.Ledger) (limit : Nat) (v : Variable) :
    Ensures (s.removeEdit limit v) (fun p => ∀ text, p.2 = .error (.internal text) →
      ∃ why : Breakdown, text = why.message) := by
  refine ensures_removeEdit (fun _ text h => by cases h) (fun edit hv => ?_)
  have hm := (OrderedMap.get?_eq_some_iff h.held.keys).mp hv
  have hinstalled : hasConstraint { s with edits := s.edits.erase v } edit.constraint = true :=
    hasConstraint_of_mem (h.held.installed _ hm)
  refine (ensures_remove_answer hinstalled limit).mono ?_
  rintro ⟨u, answer⟩ hanswer text htext
  cases answer with
  | ok _ => cases htext
  | error e =>
      obtain ⟨why, rfl⟩ := hanswer e rfl
      exact ⟨why, (EditError.internal.inj (Except.error.inj htext)).symm⟩

end Answers

section Unbound

/-- A constraint holds no edit variable. -/
def FreeOfEdits (s : Solver α) (c : Constraint α) : Prop :=
  ∀ e ∈ s.edits.entries, (e.2.constraint == c) = false

/-- A constraint is installed and holds no edit variable. -/
structure Unbound (s : Solver α) (c : Constraint α) : Prop where
  installed : s.hasConstraint c = true
  free : s.FreeOfEdits c

variable {first rest calls : List (SolverCall α)} {answers : List (SolverAnswer α)}

theorem FreeOfEdits.of_edits (h : s.FreeOfEdits c) (he : u.edits = s.edits) :
    u.FreeOfEdits c := by
  unfold FreeOfEdits
  rwa [he]

theorem FreeOfEdits.of_sublist (h : s.FreeOfEdits c)
    (he : u.edits.entries.Sublist s.edits.entries) : u.FreeOfEdits c :=
  fun e hm => h e (he.subset hm)

/-- A constraint that an addition has put on the list holds no edit variable. -/
theorem Ledger.unbound_of_done (h : s.Ledger)
    (hdone : s.perform limit (.add c) = .ok (u, .done)) : u.Unbound c := by
  obtain ⟨hu, hkeys, hedits⟩ := h.done_add hdone
  have hnew : s.constraints.keys.any (· == c) = false :=
    (hkeys ▸ hu.distinct : Constraint.Distinct (s.constraints.keys ++ c :: [])).any_eq_false
  refine ⟨?_, fun e he => ?_⟩
  · rw [hasConstraint_eq_any_keys, hkeys, List.any_append, List.any_cons, Constraint.beq_refl,
      Bool.true_or, Bool.or_true]
  · rw [hedits] at he
    have hm := OrderedMap.mem_keys_of_mem (h.held.installed e he)
    simpa using List.any_eq_false.mp hnew _ hm

/-- An edit variable that begins is held by a constraint that is new on the list. -/
theorem Ledger.addEdit_free (h : s.Ledger) (hc : s.Unbound c) (limit : Nat) (v : Variable)
    (strength : Strength α) :
    Ensures (s.addEdit limit v strength) (fun p => p.1.FreeOfEdits c) := by
  refine ensures_addEdit (fun _ => hc.free) (fun _ => hc.free) (fun hv _ => (h.add limit _).mono ?_)
  rintro p ⟨hl, -, hedits, hadded⟩
  have hfree : p.1.FreeOfEdits c := hc.free.of_edits hedits
  refine ⟨fun tag hok _ e he => ?_, fun _ _ _ => hfree, fun _ _ => hfree⟩
  obtain ⟨tag', hentries⟩ := hadded hok
  change e ∈ (p.1.edits.insert v _).entries at he
  rw [hedits, OrderedMap.entries_insert_of_not_contains hv] at he
  rcases List.mem_append.mp he with hold | hnew
  · exact hc.free e hold
  · rw [List.mem_singleton.mp hnew]
    obtain ⟨k, hk, hkc⟩ := List.any_eq_true.mp hc.installed
    have hdistinct := hl.tagged.contents
    rw [hentries] at hdistinct
    have hne := (List.pairwise_append.mp hdistinct).2.2 k hk _ (List.mem_singleton_self _)
    rwa [Constraint.beq_congr hkc, Constraint.beq_comm] at hne

/-- An addition makes no constraint hold an edit variable. -/
theorem Ledger.add_free (h : s.Ledger) (hc : s.FreeOfEdits c) (limit : Nat) (d : Constraint α) :
    Ensures (s.add limit d) (fun p => p.1.FreeOfEdits c) :=
  (h.add limit d).mono (fun _ hp => hc.of_edits hp.2.2.1)

/-- Neither does a removal. -/
theorem Ledger.remove_free (h : s.Ledger) (hc : s.FreeOfEdits c) (limit : Nat)
    (d : Constraint α) : Ensures (s.remove limit d) (fun p => p.1.FreeOfEdits c) :=
  (h.remove limit d).mono (fun _ hp => hc.of_sublist hp.2.2)

/-- The end of an edit is the removal of what holds its variable. -/
theorem Ledger.removeEdit_free (h : s.Ledger) (hc : s.FreeOfEdits c) (limit : Nat)
    (v : Variable) : Ensures (s.removeEdit limit v) (fun p => p.1.FreeOfEdits c) :=
  ensures_removeEdit (fun _ => hc) (fun edit _ =>
    (h.withEdits (h.held.erase v)).remove_free (hc.of_sublist List.eraseP_sublist) limit
      edit.constraint)

/-- A suggestion leaves every edit variable with what holds it. -/
theorem FreeOfEdits.suggest (hc : s.FreeOfEdits c) (limit : Nat) (v : Variable) (x : α) :
    Ensures (s.suggest limit v x) (fun p => p.1.FreeOfEdits c) := by
  refine (ensures_suggest_books s limit v x).mono (fun p hp e he => ?_)
  obtain ⟨-, -, -, hp⟩ := hp
  have hmem : (e.1, e.2.constraint) ∈ s.edits.entries.map (fun e => (e.1, e.2.constraint)) := by
    rw [← OrderedMap.map_entries_modify (f := fun edit : Edit α => { edit with constant := x })
      (g := Edit.constraint) (fun _ => rfl) s.edits v, ← hp]
    exact List.mem_map_of_mem he
  obtain ⟨d, hd, heq⟩ := List.mem_map.mp hmem
  rw [← (Prod.mk.inj heq).2]
  exact hc d hd

/-- No call makes a constraint hold an edit variable if that is installed already. -/
theorem Ledger.perform_free (h : s.Ledger) (hc : s.Unbound c) (limit : Nat)
    (call : SolverCall α) : Ensures (s.perform limit call) (fun p => p.1.FreeOfEdits c) := by
  cases call with
  | add d => exact Ensures.map (h.add_free hc.free limit d)
  | remove d => exact Ensures.map (h.remove_free hc.free limit d)
  | addAll ds =>
      exact Ensures.map (h.addAll_maintains (I := fun s => s.FreeOfEdits c) hc.free
        (fun h hc d _ => h.add_free hc limit d))
  | removeAll ds =>
      exact Ensures.map (h.removeAll_maintains (I := fun s => s.FreeOfEdits c) hc.free
        (fun h hc d _ => h.remove_free hc limit d))
  | addEdit v strength => exact Ensures.map (h.addEdit_free hc limit v strength)
  | removeEdit v => exact Ensures.map (h.removeEdit_free hc.free limit v)
  | suggest v x => exact Ensures.map (hc.free.suggest limit v x)
  | reset => exact ensures_ok (fun e he => by cases he)
  | hasConstraint d => exact ensures_ok hc.free
  | hasEditVariable v => exact ensures_ok hc.free
  | hasVariable v => exact ensures_ok hc.free
  | value v => exact ensures_ok hc.free
  | flush => exact ensures_ok hc.free
  | constraints => exact ensures_ok hc.free
  | settings => exact ensures_ok hc.free

/-- An unbound constraint stays so until a call takes it out by name. -/
theorem Ledger.perform_unbound (h : s.Ledger) (hc : s.Unbound c) {call : SolverCall α}
    (hcall : ¬ call.TakesOut c) (limit : Nat) :
    Ensures (s.perform limit call) (fun p => p.1.Unbound c) := by
  have hinstalled : Ensures (s.perform limit call) (fun p => p.1.hasConstraint c = true) := by
    rcases SolverCall.spares_or_removeEdit hcall with hspares | ⟨v, rfl⟩
    · exact h.perform_keeps hc.installed hspares limit
    · refine Ensures.map (ensures_removeEdit (fun _ => hc.installed) (fun edit hv => ?_))
      have herased := h.withEdits (h.held.erase v)
      have hm := (OrderedMap.get?_eq_some_iff h.held.keys).mp hv
      exact (herased.remove_keeps hc.installed (hc.free _ hm) limit).mono (fun _ hp => hp)
  exact (hinstalled.and (h.perform_free hc limit call)).mono (fun _ hp => ⟨hp.1, hp.2⟩)

theorem Ledger.run_unbound (h : s.Ledger) (hc : s.Unbound c)
    (hcalls : ∀ call ∈ calls, ¬ call.TakesOut c) (limit : Nat) :
    Ensures (s.run limit calls) (fun p => p.1.Unbound c) := by
  have hstep : ∀ s : Solver α, s.Ledger ∧ s.Unbound c → ∀ call ∈ calls,
      Ensures (s.perform limit call) (fun p => True → p.1.Ledger ∧ p.1.Unbound c) :=
    fun s hs call hcall => ((hs.1.perform limit call).and
      (hs.1.perform_unbound hs.2 (hcalls call hcall) limit)).mono (fun _ hp _ => hp)
  refine (ensures_run (A := fun _ => True) limit hstep ⟨h, hc⟩).mono ?_
  exact fun _ hp => (hp (fun _ _ => trivial)).2

/-- A constraint whose addition was accepted in the middle of a run is installed at its
end, or a later call takes it out by name. -/
theorem Ledger.accepted_or_taken_out (h : s.Ledger)
    (hrun : s.run limit (first ++ .add c :: rest) = .ok (u, answers))
    (hdone : answers[first.length]? = some .done) :
    u.hasConstraint c = true ∨ ∃ call ∈ rest, call.TakesOut c := by
  obtain ⟨w, earlier, w', answer, later, hfirst, hcall, hrest, rfl, hlength⟩ :=
    exists_perform_of_run hrun
  rw [← hlength, List.getElem?_append_right (Nat.le_refl _), Nat.sub_self,
    List.getElem?_cons_zero] at hdone
  obtain rfl := Option.some.inj hdone
  by_cases htaken : ∃ call ∈ rest, call.TakesOut c
  · exact .inr htaken
  · have hw : w.Ledger := h.run limit first _ hfirst
    have hw' : w'.Ledger := hw.perform limit (.add c) _ hcall
    have hcalls : ∀ call ∈ rest, ¬ call.TakesOut c := by simpa using htaken
    exact .inl (hw'.run_unbound (hw.unbound_of_done hcall) hcalls limit _ hrest).installed

end Unbound

section Results

variable {calls : List (SolverCall α)} {answers : List (SolverAnswer α)}

/-- After every run, whatever the answers were and whatever the arithmetic does, an edit
variable is held by a constraint that is on the list with the same tag: an equality of the
variable alone that is not required.  No two are held by one constraint, and none is held
by a constraint that is removed.  So no constraint is ever missing behind an edit
variable. -/
theorem edit_variables_match_installed_constraints (settings : Settings α) (limit : Nat)
    (hrun : (empty settings).run limit calls = .ok (s, answers)) :
    (∀ e ∈ s.edits.entries,
      s.constraints.find? e.2.constraint = some (e.2.constraint, e.2.tag) ∧
      e.2.constraint.expression.terms = [.symbolic e.1 Scalar.one] ∧
      e.2.constraint.relation = .equalTo ∧ e.2.constraint.strength.isRequired = false) ∧
    s.edits.keys.Nodup ∧
    (∀ d ∈ s.edits.entries, ∀ e ∈ s.edits.entries, d.1 ≠ e.1 →
      (d.2.constraint == e.2.constraint) = false) ∧
    (∀ c u answer, s.perform limit (.remove c) = .ok (u, answer) →
      ∀ e ∈ u.edits.entries, (e.2.constraint == c) = false) ∧
    (∀ v u answer, s.perform limit (.removeEdit v) = .ok (u, answer) → answer ≠
      .failed (.editVariable (.internal "edit constraint missing from the solver"))) ∧
    ∀ v strength u answer, s.perform limit (.addEdit v strength) = .ok (u, answer) → answer ≠
      .failed (.editVariable (.internal "edit constraint missing after insertion")) := by
  have hledger : s.Ledger := ledger_run settings limit calls _ hrun
  refine ⟨fun e he => ?_, hledger.held.keys, fun d hd e he hne => ?_, ?_, ?_, ?_⟩
  · obtain ⟨x, strength, hform, hweak⟩ := hledger.held.form e he
    refine ⟨hledger.find?_of_mem (hledger.held.installed e he), ?_, ?_, ?_⟩
    · rw [hform]
      rfl
    · rw [hform]
      rfl
    · rw [hform]
      exact hweak
  · rw [← Bool.not_eq_true]
    exact fun hbeq => hne (hledger.held.eq_of_beq hd he hbeq)
  · intro c u answer hcall
    obtain ⟨result, hremove, -⟩ := exists_of_answer hcall
    exact hledger.remove_ends limit c _ hremove
  · rintro v u answer hcall rfl
    have hremove := error_of_answer (fun _ _ => SolverError.editVariable.inj) hcall
    obtain ⟨why, hwhy⟩ := hledger.removeEdit_answer limit v _ hremove _ rfl
    cases why <;> exact absurd hwhy (by decide)
  · rintro v strength u answer hcall rfl
    have hadd := error_of_answer (fun _ _ => SolverError.editVariable.inj) hcall
    rcases ensures_addEdit_answer s limit v strength _ hadd _ rfl with hrejected | ⟨why, hwhy⟩
    · exact absurd hrejected (by decide)
    · cases why <;> exact absurd hwhy (by decide)

/-- When the constraint behind one of two edit variables is removed by name, only the other
is an edit variable. -/
theorem removing_what_holds_ends_one :
    ∃ (s : Solver Rat) (answers : List (SolverAnswer Rat)),
      (empty .standard).run 9 [.addEdit ⟨.entity ⟨0⟩, .width⟩ .strong,
        .addEdit ⟨.entity ⟨1⟩, .width⟩ .strong,
        .remove (holding ⟨.entity ⟨0⟩, .width⟩ 0 .strong)] = .ok (s, answers) ∧
      s.edits.keys = [⟨.entity ⟨1⟩, .width⟩] ∧
      ∀ e ∈ s.edits.entries,
        s.constraints.find? e.2.constraint = some (e.2.constraint, e.2.tag) := by
  have hchain : ((empty .standard : Solver Rat).run 9 [.addEdit ⟨.entity ⟨0⟩, .width⟩ .strong,
      .addEdit ⟨.entity ⟨1⟩, .width⟩ .strong,
      .remove (holding ⟨.entity ⟨0⟩, .width⟩ 0 .strong)]).toOption.any
        (fun p => decide (p.1.edits.keys = [⟨.entity ⟨1⟩, .width⟩])) = true := by
    decide +kernel
  obtain ⟨⟨s, answers⟩, hrun, hkeys⟩ := exists_ok_of_any hchain
  have hagree := (edit_variables_match_installed_constraints .standard 9 hrun).1
  exact ⟨s, answers, hrun, of_decide_eq_true hkeys, fun e he => (hagree e he).1⟩

end Results

end Solver
end Tether
