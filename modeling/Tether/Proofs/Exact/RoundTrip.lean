import Tether.Proofs.Exact.Runs
import Tether.Proofs.Solver.RoundTrip

/-!
# Values after a round trip

Once a constraint has been added and removed again, the rows are in general those of
another basis.  What is the same is what is asked for: the installed constraints and what
the edit variables are held at.  Values that are best before are therefore best
afterwards, and if only one choice of values is best, then it is found again.

* `Minimises`: values satisfy the required constraints and violate the preferences as
  little as any others that do.
* `Determined`: values that do so agree on the known variables.
-/

namespace Tether
namespace Solver

open Simplex

section Best

/-- The values satisfy the required constraints, and no others that do violate the
preferences less, as they are while the edits last. -/
def Minimises (s : Solver Rat) (ν : Variable → Rat) : Prop :=
  (∀ d ∈ s.constraints.keys, d.strength.isRequired = true → d.Holds ν) ∧
  ∀ ν' : Variable → Rat,
    (∀ d ∈ s.constraints.keys, d.strength.isRequired = true → d.Holds ν') →
      regret ν (s.constraints.keys.map (·.current s.edits)) ≤
        regret ν' (s.constraints.keys.map (·.current s.edits))

/-- The best values of the known variables are the only ones. -/
def Determined (s : Solver Rat) : Prop :=
  ∀ ν ν' : Variable → Rat, s.Minimises ν → s.Minimises ν' →
    ∀ v, s.hasVariable v = true → ν v = ν' v

variable {s u w : Solver Rat} {v : Variable} {ν : Variable → Rat} {c : Constraint Rat}
  {limit limit' : Nat}

theorem Sound.minimises (h : s.Sound) : s.Minimises s.value :=
  ⟨fun _ hd hr => h.holds hd hr, fun _ hν => h.regret_le hν⟩

/-- What is best depends on the installed constraints and on what is suggested. -/
theorem Minimises.congr (h : w.Minimises ν) (hconstraints : w.constraints = s.constraints)
    (hedits : w.edits = s.edits) : s.Minimises ν := by
  unfold Minimises at h ⊢
  rwa [hconstraints, hedits] at h

theorem value?_of_hasVariable (h : s.hasVariable v = true) :
    s.value? v = some (s.value v) := by
  obtain ⟨entry, hentry⟩ := Option.isSome_iff_exists.mp ((OrderedMap.isSome_get? _ _).trans h)
  unfold value value?
  rw [hentry]
  rfl

theorem value?_of_not_hasVariable (h : s.hasVariable v = false) : s.value? v = none := by
  rw [value?, OrderedMap.get?_eq_none_iff.mpr h]
  rfl

/-- Sound solvers that are asked for the same and know the same variables give them the
same values, if only one choice of values is best. -/
theorem Sound.value?_eq (hs : s.Sound) (hw : w.Sound)
    (hconstraints : w.constraints = s.constraints) (hedits : w.edits = s.edits)
    (hunknowns : w.unknowns = s.unknowns) (hdetermined : s.Determined) (v : Variable) :
    w.value? v = s.value? v := by
  have hknown : w.hasVariable v = s.hasVariable v := congrArg (·.contains v) hunknowns
  cases hv : s.hasVariable v with
  | true =>
      have hbest : s.Minimises w.value := hw.minimises.congr hconstraints hedits
      rw [value?_of_hasVariable hv, value?_of_hasVariable (hknown.trans hv),
        hdetermined w.value s.value hbest hs.minimises v hv]
  | false => rw [value?_of_not_hasVariable hv, value?_of_not_hasVariable (hknown.trans hv)]

end Best

section Runs

/-- After every run without breakdowns in which unused variables are collected, adding a
constraint that is not installed and removing it again leaves the list of constraints with
their tags, the edit variables and all that is known about variables as they were, whatever
the arithmetic does.  If it is exact and no strength is negative, and if the best values
were the only ones, then every variable has the value that it had. -/
theorem addition_and_removal_return :
    (∀ {α : Type} [Scalar α] (settings : Settings α) (limit limit₁ limit₂ : Nat)
      {calls : List (SolverCall α)} {s u w : Solver α} {answers : List (SolverAnswer α)}
      {c : Constraint α}, settings.collectUnused = true →
      (empty settings).run limit calls = .ok (s, answers) →
      (∀ a ∈ answers, a.isInternal = false) → s.hasConstraint c = false →
      s.perform limit₁ (.add c) = .ok (u, .done) →
      u.perform limit₂ (.remove c) = .ok (w, .done) →
      w.constraints = s.constraints ∧ w.edits = s.edits ∧ w.unknowns = s.unknowns) ∧
    ∀ (settings : Settings Rat) (limit limit₁ limit₂ : Nat) {calls : List (SolverCall Rat)}
      {s u w : Solver Rat} {answers : List (SolverAnswer Rat)} {c : Constraint Rat},
      settings.collectUnused = true → (∀ call ∈ calls, call.Weighted) →
      (empty settings).run limit calls = .ok (s, answers) →
      (∀ a ∈ answers, a.isInternal = false) → s.hasConstraint c = false →
      0 ≤ c.strength.value →
      s.perform limit₁ (.add c) = .ok (u, .done) →
      u.perform limit₂ (.remove c) = .ok (w, .done) →
      s.Determined → ∀ v, w.value? v = s.value? v := by
  refine ⟨?_, ?_⟩
  · intro α _ settings limit limit₁ limit₂ calls s u w answers c hcollect hrun hcalm hnew hadd
      hremove
    exact books_of_return settings hcollect hrun hcalm hnew hadd hremove
  · intro settings limit limit₁ limit₂ calls s u w answers c hcollect hw hrun hcalm hnew hpos hadd
      hremove hdetermined
    obtain ⟨hconstraints, hedits, hunknowns⟩ :=
      books_of_return settings hcollect hrun hcalm hnew hadd hremove
    have hs : s.Sound := sound_run settings limit hw _ hrun
    have hadded : (SolverCall.add c).Weighted := by simpa [SolverCall.Weighted, SolverCall.added]
    have hremoved : (SolverCall.remove c).Weighted := by
      simp [SolverCall.Weighted, SolverCall.added]
    have hu : u.Sound := (hs.perform limit₁ hadded _ hadd).2
    have hw : w.Sound := (hu.perform limit₂ hremoved _ hremove).2
    exact hs.value?_eq hw hconstraints hedits hunknowns hdetermined

/-- A solver that is asked for nothing but a value of its only variable is determined. -/
theorem determined_of_wish {s : Solver Rat} {d : Constraint Rat} {v : Variable} {x : Rat}
    {strength : Strength Rat} (hkeys : s.constraints.keys = [d]) (hedits : s.edits.entries = [])
    (hcontent : d.content = (⟨[.symbolic v 1], -x⟩, .equalTo, strength))
    (hr : strength.isRequired = false) (hpos : 0 < strength.value)
    (hknown : ∀ y, s.hasVariable y = true → y = v) : s.Determined := by
  have hexpression : d.expression = ⟨[.symbolic v 1], -x⟩ := congrArg (fun p => p.1) hcontent
  have hrelation : d.relation = .equalTo := congrArg (fun p => p.2.1) hcontent
  have hstrength : d.strength = strength := congrArg (fun p => p.2.2) hcontent
  have hcurrent : d.current s.edits = d := Constraint.current_of_none (by simp [hedits])
  have hlist : s.constraints.keys.map (·.current s.edits) = [d] := by simp [hkeys, hcurrent]
  have hrequired : ∀ ν : Variable → Rat, ∀ e ∈ s.constraints.keys,
      e.strength.isRequired = true → e.Holds ν := by
    intro ν e he her
    rw [hkeys, List.mem_singleton] at he
    rw [he, hstrength, hr] at her
    cases her
  have hregret : ∀ ν : Variable → Rat, regret ν [d] = strength.value * |ν v - x| := by
    intro ν
    have heval : d.expression.eval ν = ν v - x := by
      rw [hexpression]
      show 1 * ν v + 0 + -x = ν v - x
      ring
    rw [regret, List.map_singleton, List.sum_singleton, hstrength, hr, if_neg (by simp),
      Constraint.violation_of_equalTo hrelation, max_zero_add_max_neg_zero_eq_abs_self, heval]
  have hbest : ∀ ν : Variable → Rat, s.Minimises ν → ν v = x := by
    rintro ν ⟨-, hleast⟩
    have hle := hleast (fun _ => x) (hrequired _)
    rw [hlist, hregret, hregret, sub_self, abs_zero, mul_zero] at hle
    have habs : |ν v - x| ≤ 0 := by
      by_contra hlt
      exact absurd hle (not_le_of_gt (mul_pos hpos (not_le.mp hlt)))
    exact sub_eq_zero.mp (abs_nonpos_iff.mp habs)
  intro ν ν' hν hν' y hy
  rw [hknown y hy, hbest ν hν, hbest ν' hν']

/-- A stronger wish moves a variable away from five; when it is taken back, the variable is
back too. -/
theorem width_returns_to_five :
    ∃ (s u w : Solver Rat) (answers : List (SolverAnswer Rat)),
      (empty .standard).run 9 [.add ⟨"five", ⟨[.symbolic ⟨.entity ⟨0⟩, .width⟩ 1], -5⟩, .equalTo,
        .medium⟩] = .ok (s, answers) ∧
      s.perform 9 (.add ⟨"nine", ⟨[.symbolic ⟨.entity ⟨0⟩, .width⟩ 1], -9⟩, .equalTo,
        .strong⟩) = .ok (u, .done) ∧
      u.perform 9 (.remove ⟨"nine", ⟨[.symbolic ⟨.entity ⟨0⟩, .width⟩ 1], -9⟩, .equalTo,
        .strong⟩) = .ok (w, .done) ∧
      u.value? ⟨.entity ⟨0⟩, .width⟩ = some 9 ∧ w.value? ⟨.entity ⟨0⟩, .width⟩ = some 5 ∧
      w.constraints = s.constraints ∧ w.edits = s.edits ∧ w.unknowns = s.unknowns := by
  have hchain : ((empty .standard : Solver Rat).run 9 [.add ⟨"five",
      ⟨[.symbolic ⟨.entity ⟨0⟩, .width⟩ 1], -5⟩, .equalTo, .medium⟩]).toOption.any (fun p =>
        decide (p.1.constraints.keys.map (·.content) =
          [(⟨[.symbolic ⟨.entity ⟨0⟩, .width⟩ 1], -5⟩, .equalTo, .medium)]) &&
        decide (p.1.unknowns.keys = [⟨.entity ⟨0⟩, .width⟩]) && p.1.edits.entries.isEmpty &&
        !p.1.hasConstraint ⟨"nine", ⟨[.symbolic ⟨.entity ⟨0⟩, .width⟩ 1], -9⟩, .equalTo,
          .strong⟩ &&
        decide (p.1.value? ⟨.entity ⟨0⟩, .width⟩ = some 5) && p.2.all (fun a => !a.isInternal) &&
        (p.1.add 9 ⟨"nine", ⟨[.symbolic ⟨.entity ⟨0⟩, .width⟩ 1], -9⟩, .equalTo,
          .strong⟩).toOption.any (fun q => decide (q.2 = .ok ()) &&
            decide (q.1.value? ⟨.entity ⟨0⟩, .width⟩ = some 9) &&
            (q.1.remove 9 ⟨"nine", ⟨[.symbolic ⟨.entity ⟨0⟩, .width⟩ 1], -9⟩, .equalTo,
              .strong⟩).toOption.any (fun r => decide (r.2 = .ok ())))) = true := by
    decide +kernel
  obtain ⟨⟨s, answers⟩, hrun, hrest⟩ := exists_ok_of_any hchain
  simp only [Bool.and_eq_true, decide_eq_true_eq, Bool.not_eq_true', List.isEmpty_iff,
    List.all_eq_true] at hrest
  obtain ⟨⟨⟨⟨⟨⟨hcontents, hknown⟩, hedits⟩, hnew⟩, hfive⟩, hcalm⟩, hrest⟩ := hrest
  obtain ⟨⟨u, added⟩, hadd, hrest⟩ := exists_ok_of_any hrest
  simp only [Bool.and_eq_true, decide_eq_true_eq] at hrest
  obtain ⟨⟨rfl, hnine⟩, hrest⟩ := hrest
  obtain ⟨⟨w, removed⟩, hremove, hrest⟩ := exists_ok_of_any hrest
  obtain rfl : removed = .ok () := of_decide_eq_true hrest
  obtain ⟨d, hkeys, hcontent⟩ := List.map_eq_singleton_iff.mp hcontents
  have hdetermined : s.Determined := by
    refine determined_of_wish (v := ⟨.entity ⟨0⟩, .width⟩) hkeys hedits hcontent
      (by decide +kernel) (by decide +kernel) (fun y hy => ?_)
    have hmem := OrderedMap.contains_iff_mem_keys.mp hy
    rwa [hknown, List.mem_singleton] at hmem
  obtain ⟨hbooks, hvalues⟩ := addition_and_removal_return
  have hreturned := hbooks .standard 9 9 9 rfl hrun hcalm hnew (answer_of_ok hadd)
    (answer_of_ok hremove)
  refine ⟨s, u, w, answers, hrun, answer_of_ok hadd, answer_of_ok hremove, hnine, ?_, hreturned⟩
  rw [hvalues .standard 9 9 9 rfl (by decide +kernel) hrun hcalm hnew (by decide +kernel)
    (answer_of_ok hadd) (answer_of_ok hremove) hdetermined]
  exact hfive

end Runs

end Solver
end Tether
