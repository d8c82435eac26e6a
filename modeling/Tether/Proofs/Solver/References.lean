import Tether.Proofs.Solver.Variables

/-!
# Which variables are known

The references of a variable are counted in four places: a term raises the count when
its constraint has been installed and lowers it when the constraint is removed, a
rejection cuts the new variables off, and a removal forgets a variable whose count has
come to zero.  All of them agree on which terms count, so the count of a variable is
always the number of terms of installed constraints that refer to it.

If unused variables are collected, the known variables are therefore those that an
installed constraint refers to.  A breakdown in the middle of an addition may leave
variables behind that no constraint refers to yet; no other answer does.
-/

namespace Tether
namespace Solver

open Simplex

variable {α : Type} [Scalar α] {s : Solver α} {c : Constraint α} {limit : Nat}

section Uses

theorem uses_eq_of_constraints {u : Solver α} (h : u.constraints = s.constraints) :
    u.uses = s.uses := by
  funext v
  simp only [uses, h]

/-- A variable is in use if a term of an installed constraint refers to it. -/
theorem uses_pos_iff {v : Variable} : 0 < s.uses v ↔
    ∃ c ∈ s.constraints.keys, ∃ t ∈ c.expression.terms, t.refersTo v = true := by
  simp only [uses, List.countP_pos_iff, List.mem_flatMap]
  constructor
  · rintro ⟨t, ⟨c, hc, ht⟩, href⟩
    exact ⟨c, hc, t, ht, href⟩
  · rintro ⟨c, hc, t, ht, href⟩
    exact ⟨t, ⟨c, hc, ht⟩, href⟩

/-- A new constraint adds the references of its own terms. -/
theorem uses_of_insert {u : Solver α} {tag : Tag} (hnew : s.hasConstraint c = false)
    (h : u.constraints = s.constraints.insert c tag) (v : Variable) :
    u.uses v = s.uses v + c.expression.terms.countP (·.refersTo v) := by
  have hkeys : u.constraints.keys = s.constraints.keys ++ [c] := by
    rw [h, OrderedMap.keys_insert, if_neg (by simpa [hasConstraint] using hnew)]
  rw [uses, hkeys, List.flatMap_append, List.flatMap_singleton, List.countP_append]
  rfl

end Uses

section Settings

/-- No call changes the options. -/
theorem callStable_settings (settings : Settings α) (limit : Nat) :
    CallStable limit False (fun s : Solver α => s.settings = settings) := by
  refine .of_books (fun hsettings _ _ hs => hsettings.trans hs) ?_ ?_ (fun hs => hs)
  · intro s _ hs c
    exact (ensures_accession s limit c).mono (fun _ hp _ => hp.2.trans hs)
  · intro s hl hs c
    exact (ensures_departure hl limit c).mono (fun _ hp _ => hp.2.trans hs)

end Settings

section Tidiness

/-- If unused variables are collected, every known variable is in use. -/
def Tidy (s : Solver α) : Prop :=
  s.settings.collectUnused = true → ∀ v, s.hasVariable v = true → 0 < s.uses v

theorem Tidy.of_books {u : Solver α} (h : s.Tidy) (hsettings : u.settings = s.settings)
    (hconstraints : u.constraints = s.constraints)
    (hkeys : u.unknowns.keys = s.unknowns.keys) : u.Tidy := by
  intro hcollect v hv
  rw [uses_eq_of_constraints hconstraints]
  refine h (hsettings ▸ hcollect) v ?_
  rwa [hasVariable, OrderedMap.contains_eq_any_keys, ← hkeys,
    ← OrderedMap.contains_eq_any_keys]

theorem tidy_empty (settings : Settings α) : (empty settings).Tidy := by
  intro _ v hv
  cases hv

theorem Tidy.add (h : s.Tidy) (limit : Nat) (c : Constraint α) :
    Ensures (s.add limit c) (fun p => Calm AddError.internal p.2 → p.1.Tidy) := by
  refine (ensures_accession s limit c).mono ?_
  rintro p ⟨haccession, hsettings⟩ hcalm
  cases haccession with
  | refused hconstraints hunknowns _ =>
      exact h.of_books hsettings hconstraints (congrArg _ hunknowns)
  | @installed u _ _ hnew hconstraints hunknowns _ =>
      intro hcollect v hv
      have hcreated : (s.createRow c).2.2.hasVariable v = true := by
        rwa [hasVariable, hunknowns, OrderedMap.contains_eq_any_keys, keys_retainVariables,
          ← OrderedMap.contains_eq_any_keys] at hv
      rw [uses_of_insert hnew hconstraints]
      rcases contains_or_of_contains_createRow hcreated with hold | hterm
      · exact Nat.add_pos_left (h (hsettings ▸ hcollect) v hold) _
      · exact Nat.add_pos_right _ (List.countP_pos_iff.mpr hterm)
  | broken _ _ => exact absurd rfl (hcalm _)

/-- Taking back a reference forgets the variable, or another one is left. -/
theorem references_pos_of_releaseVariable {t : Term α} {entry : VariableEntry α}
    (hkeys : s.unknowns.keys.Nodup) (hcollect : s.settings.collectUnused = true)
    (hz : Scalar.nearZero t.coefficient = false)
    (hget : (s.releaseVariable t).unknowns.get? t.unknown = some entry) :
    0 < entry.references := by
  have hcounted : (countReference (· - 1) s.unknowns t).keys.Nodup := by
    rwa [keys_countReference]
  unfold releaseVariable at hget
  simp only [hz, hcollect, Bool.not_true, Bool.or_self, Bool.false_eq_true, if_false] at hget
  split at hget
  · rename_i hnone
    rw [hnone] at hget
    cases hget
  · rename_i found hfound
    split at hget
    · rw [OrderedMap.get?_erase_self hcounted] at hget
      cases hget
    · rename_i hne
      rw [hfound] at hget
      cases hget
      exact Nat.pos_of_ne_zero hne

/-- Every known variable is in use, or a term whose reference is still to be taken back
refers to it. -/
def TidyBut (s : Solver α) (terms : List (Term α)) : Prop :=
  s.settings.collectUnused = true →
    ∀ v, s.hasVariable v = true → 0 < s.uses v + terms.countP (·.refersTo v)

theorem TidyBut.releaseVariable {t : Term α} {rest : List (Term α)}
    (hr : Releasing s (t :: rest)) (h : s.TidyBut (t :: rest)) :
    (s.releaseVariable t).TidyBut rest := by
  intro hcollect v hv
  rw [(books_releaseVariable s t).1] at hcollect
  by_cases href : t.refersTo v = true
  · have hterm : Scalar.nearZero t.coefficient = false ∧ t.unknown = v := by
      simpa [Term.refersTo] using href
    obtain ⟨hz, rfl⟩ := hterm
    have hnext := hr.releaseVariable.counted
    obtain ⟨entry, hget⟩ := Option.isSome_iff_exists.mp
      ((OrderedMap.isSome_get? _ _).trans hv)
    have hpos := references_pos_of_releaseVariable hr.counted.keys hcollect hz hget
    rwa [hnext.references _ ((OrderedMap.get?_eq_some_iff hnext.keys).mp hget)] at hpos
  · have hold : s.hasVariable v = true := by
      have hkeys : (s.releaseVariable t).unknowns.keys.Sublist s.unknowns.keys := by
        rcases releaseVariable_cases s t with hs | ⟨entry, -, -, hs⟩
        · rw [hs, ← keys_countReference (· - 1) s.unknowns t]
        · rw [hs, ← keys_countReference (· - 1) s.unknowns t]
          exact List.eraseP_sublist.map _
      exact OrderedMap.contains_iff_mem_keys.mpr
        (hkeys.subset (OrderedMap.contains_iff_mem_keys.mp hv))
    have hpos := h hcollect v hold
    rw [List.countP_cons_of_neg href] at hpos
    rwa [uses_releaseVariable]

theorem TidyBut.releaseVariables (hr : Releasing s c.expression.terms)
    (h : s.TidyBut c.expression.terms) : (s.releaseVariables c).Tidy := by
  unfold Solver.releaseVariables
  generalize c.expression.terms = terms at hr h
  induction terms generalizing s with
  | nil => exact h
  | cons t rest ih => exact ih hr.releaseVariable (h.releaseVariable hr)

theorem Tidy.remove (h : s.Tidy) (hl : s.Ledger) (limit : Nat) (c : Constraint α) :
    Ensures (s.remove limit c) (fun p => p.1.Tidy) := by
  refine (ensures_departure hl limit c).mono ?_
  rintro p ⟨hdeparture, hsettings⟩
  cases hdeparture with
  | unknown hconstraints hunknowns =>
      exact h.of_books hsettings hconstraints (congrArg _ hunknowns)
  | removed hf hconstraints hunknowns =>
      obtain ⟨hsame, hlist, hknown⟩ := hl.books_detach hf
      have hr := hl.releasing_detach hf
      obtain ⟨-, hsame', hlist', -⟩ := hr.releaseVariables
      refine Tidy.of_books (TidyBut.releaseVariables hr ?_)
        (hsettings.trans (hsame'.trans hsame).symm)
        (hconstraints.trans (hlist'.trans hlist).symm) (congrArg _ hunknowns)
      -- Until its references are taken back, the constraint counts as it did while
      -- it was installed.
      intro hcollect v hv
      rw [hasVariable, hknown] at hv
      obtain ⟨entry, hget⟩ := Option.isSome_iff_exists.mp
        ((OrderedMap.isSome_get? _ _).trans hv)
      have hentry := (OrderedMap.get?_eq_some_iff hl.counted.keys).mp hget
      have hcount := hr.counted.references (v, entry) (by rwa [hknown])
      rw [← hcount, hl.counted.references _ hentry]
      exact h (hsame ▸ hcollect) v hv

theorem callStable_tidy (limit : Nat) : CallStable limit True (Tidy : Solver α → Prop) := by
  refine .of_books (fun hsettings hconstraints hunknowns hs =>
    hs.of_books hsettings hconstraints (congrArg _ hunknowns)) ?_ ?_ (fun _ => tidy_empty _)
  · intro s _ hs c
    exact (hs.add limit c).mono (fun _ hp hcalm => hp (hcalm trivial))
  · intro s hl hs c
    exact (hs.remove hl limit c).mono (fun _ hp _ => hp)

theorem Tidy.flush (h : s.Tidy) : s.flush.1.Tidy :=
  h.of_books rfl rfl (OrderedMap.keys_mapValues _ _)

end Tidiness

section Runs

/-- Every run keeps the options. -/
theorem settings_run (settings : Settings α) (limit : Nat) (calls : List (SolverCall α)) :
    Ensures ((empty settings).run limit calls) (fun p => p.1.settings = settings) := by
  exact ((callStable_settings settings limit).run (ledger_empty settings) rfl (fun hs => hs)
    calls).mono (fun _ hp => hp nofun)

/-- After a run without breakdowns every known variable is in use, if unused ones are
collected. -/
theorem tidy_run (settings : Settings α) (limit : Nat) (calls : List (SolverCall α)) :
    Ensures ((empty settings).run limit calls)
      (fun p => (∀ a ∈ p.2, a.isInternal = false) → p.1.Tidy) := by
  exact ((callStable_tidy limit).run (ledger_empty settings) (tidy_empty settings) Tidy.flush
    calls).mono (fun _ hp hcalm => hp (fun _ => hcalm))

/-- After every run the references of each known variable are as many as the terms of
installed constraints that refer to it, and every variable that one refers to is known.
If no call broke down and unused variables are collected, a variable is known just if an
installed constraint refers to it. -/
theorem known_variables_are_those_referred_to (settings : Settings α) (limit : Nat)
    {calls : List (SolverCall α)} {answers : List (SolverAnswer α)}
    (hrun : (empty settings).run limit calls = .ok (s, answers)) :
    (∀ v entry, s.unknowns.get? v = some entry → entry.references = s.uses v) ∧
      (∀ c ∈ s.constraints.keys, ∀ t ∈ c.expression.terms,
        Scalar.nearZero t.coefficient = false → s.hasVariable t.unknown = true) ∧
      ((∀ a ∈ answers, a.isInternal = false) → settings.collectUnused = true →
        ∀ v, s.hasVariable v = true ↔ ∃ c ∈ s.constraints.keys, ∃ t ∈ c.expression.terms,
          Scalar.nearZero t.coefficient = false ∧ t.unknown = v) := by
  have hcounted := (ledger_run settings limit calls _ hrun).counted
  have hreferred : ∀ c ∈ s.constraints.keys, ∀ t ∈ c.expression.terms,
      Scalar.nearZero t.coefficient = false → s.hasVariable t.unknown = true :=
    fun c hc t ht hz => hcounted.demanded _
      (uses_pos_iff.mpr ⟨c, hc, t, ht, Term.refersTo_unknown hz⟩)
  refine ⟨?_, hreferred, ?_⟩
  · intro v entry hget
    exact hcounted.references _ ((OrderedMap.get?_eq_some_iff hcounted.keys).mp hget)
  · intro hcalm hcollect v
    rw [← settings_run settings limit calls _ hrun] at hcollect
    constructor
    · intro hv
      have hpos := tidy_run settings limit calls _ hrun hcalm hcollect v hv
      simpa [Term.refersTo] using uses_pos_iff.mp hpos
    · rintro ⟨c, hc, t, ht, hz, rfl⟩
      exact hreferred c hc t ht hz

/-- A term that is repeated counts twice, one near zero not at all, and the constraint
that holds an edit variable counts too; the variable of a constraint that is gone is
forgotten. -/
theorem known_variables_with_repeated_terms :
    ∃ (s : Solver Rat) (answers : List (SolverAnswer Rat)),
      (empty .standard).run 9 [
        .add ⟨"twice", ⟨[.symbolic ⟨.entity ⟨0⟩, .width⟩ 1, .symbolic ⟨.entity ⟨0⟩, .width⟩ 1,
          .symbolic ⟨.entity ⟨0⟩, .height⟩ 0], -2⟩, .equalTo, .medium⟩,
        .addEdit ⟨.entity ⟨0⟩, .width⟩ .strong,
        .add ⟨"gone", ⟨[.symbolic ⟨.entity ⟨1⟩, .width⟩ 1], -3⟩, .equalTo, .required⟩,
        .remove ⟨"gone", ⟨[.symbolic ⟨.entity ⟨1⟩, .width⟩ 1], -3⟩, .equalTo, .required⟩] =
          .ok (s, answers) ∧
      (∃ entry, s.unknowns.get? ⟨.entity ⟨0⟩, .width⟩ = some entry ∧ entry.references = 3 ∧
        s.uses ⟨.entity ⟨0⟩, .width⟩ = 3) ∧
      ∀ v, s.hasVariable v = true ↔ ∃ c ∈ s.constraints.keys, ∃ t ∈ c.expression.terms,
        Scalar.nearZero t.coefficient = false ∧ t.unknown = v := by
  have hchain : ((empty .standard : Solver Rat).run 9 [
        .add ⟨"twice", ⟨[.symbolic ⟨.entity ⟨0⟩, .width⟩ 1, .symbolic ⟨.entity ⟨0⟩, .width⟩ 1,
          .symbolic ⟨.entity ⟨0⟩, .height⟩ 0], -2⟩, .equalTo, .medium⟩,
        .addEdit ⟨.entity ⟨0⟩, .width⟩ .strong,
        .add ⟨"gone", ⟨[.symbolic ⟨.entity ⟨1⟩, .width⟩ 1], -3⟩, .equalTo, .required⟩,
        .remove ⟨"gone", ⟨[.symbolic ⟨.entity ⟨1⟩, .width⟩ 1], -3⟩, .equalTo,
          .required⟩]).toOption.any (fun p => p.2.all (fun a => !a.isInternal) &&
            (p.1.unknowns.get? ⟨.entity ⟨0⟩, .width⟩).any
              (fun entry => decide (entry.references = 3))) = true := by
    decide +kernel
  obtain ⟨⟨s, answers⟩, hrun, hrest⟩ := exists_ok_of_any hchain
  obtain ⟨hcalm, hcount⟩ := Bool.and_eq_true_iff.mp hrest
  obtain ⟨entry, hget, hthree⟩ := (Option.any_eq_true _ _).mp hcount
  have hthree : entry.references = 3 := of_decide_eq_true hthree
  obtain ⟨hreferences, -, hknown⟩ := known_variables_are_those_referred_to .standard 9 hrun
  exact ⟨s, answers, hrun, ⟨entry, hget, hthree, (hreferences _ _ hget).symm.trans hthree⟩,
    hknown (by simpa using hcalm) rfl⟩

end Runs

end Solver
end Tether
