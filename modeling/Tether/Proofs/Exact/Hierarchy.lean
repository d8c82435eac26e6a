import Mathlib.Algebra.BigOperators.Group.Finset.Piecewise
import Mathlib.Algebra.Order.BigOperators.Group.Finset
import Tether.Proofs.Exact.Runs

/-!
# Stronger and weaker preferences

A strength is the weight of one unit of violation, and what the values of the variables
keep low is the sum of all violations with their weights.  Strengths are therefore no
strict hierarchy: a stronger preference gives way as soon as what weaker ones gain weighs
more, and that is a matter of how many they are and of the scale of their coefficients.

What does hold is that nothing is given away.  Whoever keeps the required constraints and
lets no stronger preference lose pays for what they gain at one strength with as much, by
weight, at the weaker ones.
-/

namespace Tether

open Simplex

section Levels

/-- By how much the constraints of one strength are violated together. -/
def violationAt (ν : Variable → Rat) (cs : List (Constraint Rat)) (strength : Rat) : Rat :=
  ((cs.filter (fun c => c.strength.value = strength)).map (·.violation ν)).sum

/-- The strengths of the preferences. -/
def levels (cs : List (Constraint Rat)) : Finset Rat :=
  ((cs.filter (fun c => !c.strength.isRequired)).map (·.strength.value)).toFinset

variable {ν : Variable → Rat} {c : Constraint Rat} {cs : List (Constraint Rat)} {t : Rat}

theorem violationAt_cons (ν : Variable → Rat) (c : Constraint Rat) (cs : List (Constraint Rat))
    (t : Rat) : violationAt ν (c :: cs) t =
      (if c.strength.value = t then c.violation ν else 0) + violationAt ν cs t := by
  unfold violationAt
  by_cases h : c.strength.value = t
  · simp [h]
  · simp [h]

theorem mem_levels_iff : t ∈ levels cs ↔
    ∃ c ∈ cs, c.strength.isRequired = false ∧ c.strength.value = t := by
  simp [levels, and_assoc]

theorem not_isRequired_of_mem_levels (h : t ∈ levels cs) :
    (⟨t⟩ : Strength Rat).isRequired = false := by
  obtain ⟨c, -, hc, rfl⟩ := mem_levels_iff.mp h
  exact hc

/-- The weighted violations, taken strength by strength. -/
theorem regret_eq_sum_of_subset (ν : Variable → Rat) {T : Finset Rat}
    (hpreferences : ∀ t ∈ T, (⟨t⟩ : Strength Rat).isRequired = false)
    (hall : ∀ c ∈ cs, c.strength.isRequired = false → c.strength.value ∈ T) :
    regret ν cs = ∑ t ∈ T, t * violationAt ν cs t := by
  induction cs with
  | nil => simp [regret, violationAt]
  | cons c rest ih =>
      have hrest := ih (fun d hd => hall d (List.mem_cons_of_mem c hd))
      have hhead : (if c.strength.isRequired = true then 0
          else c.strength.value * c.violation ν) =
            ∑ t ∈ T, t * (if c.strength.value = t then c.violation ν else 0) := by
        simp only [mul_ite, mul_zero, Finset.sum_ite_eq]
        cases hc : c.strength.isRequired with
        | true =>
            have hnot : c.strength.value ∉ T := fun hmem => by
              have hpreference : c.strength.isRequired = false := hpreferences _ hmem
              rw [hc] at hpreference
              cases hpreference
            simp [hnot]
        | false => simp [hall c (List.mem_cons_self ..) hc]
      simp only [violationAt_cons, mul_add, Finset.sum_add_distrib]
      rw [← hhead, ← hrest]
      rfl

theorem regret_eq_sum (ν : Variable → Rat) (cs : List (Constraint Rat)) :
    regret ν cs = ∑ t ∈ levels cs, t * violationAt ν cs t :=
  regret_eq_sum_of_subset ν (fun _ ht => not_isRequired_of_mem_levels ht)
    (fun c hc hr => mem_levels_iff.mpr ⟨c, hc, hr, rfl⟩)

end Levels

namespace Solver

variable {s : Solver Rat} {ν : Variable → Rat} {t level : Rat}

/-- The installed constraints, each with what it asks for now. -/
def asks (s : Solver Rat) : List (Constraint Rat) :=
  s.constraints.keys.map (·.current s.edits)

theorem Sound.levels_nonneg (h : s.Sound) (ht : t ∈ levels s.asks) : 0 ≤ t := by
  obtain ⟨c, hc, -, rfl⟩ := mem_levels_iff.mp ht
  obtain ⟨d, hd, rfl⟩ := List.mem_map.mp hc
  obtain ⟨e, he, rfl⟩ := List.mem_map.mp hd
  rw [Constraint.strength_current]
  exact h.weights e he

/-- In a sound solver, what other values gain at one strength they lose at the weaker
ones, if they keep the required constraints and lose nothing at the stronger ones. -/
theorem Sound.gain_le (h : s.Sound)
    (hν : ∀ c ∈ s.constraints.keys, c.strength.isRequired = true → c.Holds ν)
    (hlevel : level ∈ levels s.asks)
    (hstronger : ∀ t ∈ levels s.asks, level < t →
      violationAt ν s.asks t ≤ violationAt s.value s.asks t) :
    level * (violationAt s.value s.asks level - violationAt ν s.asks level) ≤
      ∑ t ∈ (levels s.asks).filter (· < level),
        t * (violationAt ν s.asks t - violationAt s.value s.asks t) := by
  have hregret : regret s.value s.asks ≤ regret ν s.asks := h.regret_le hν
  rw [regret_eq_sum, regret_eq_sum, ← sub_nonneg, ← Finset.sum_sub_distrib] at hregret
  simp only [← mul_sub] at hregret
  -- What is lost at the level itself and above is at most what is lost at the level.
  have hrest : ∑ t ∈ (levels s.asks).filter (fun t => ¬ t < level),
      t * (violationAt ν s.asks t - violationAt s.value s.asks t) ≤
        level * (violationAt ν s.asks level - violationAt s.value s.asks level) := by
    have hmem : level ∈ (levels s.asks).filter (fun t => ¬ t < level) :=
      Finset.mem_filter.mpr ⟨hlevel, lt_irrefl level⟩
    rw [← Finset.add_sum_erase _ _ hmem]
    refine add_le_of_nonpos_right (Finset.sum_nonpos (fun t ht => ?_))
    obtain ⟨hne, hkept⟩ := Finset.mem_erase.mp ht
    obtain ⟨hused, hnot⟩ := Finset.mem_filter.mp hkept
    have habove : level < t := lt_of_le_of_ne (not_lt.mp hnot) (Ne.symm hne)
    exact mul_nonpos_of_nonneg_of_nonpos (h.levels_nonneg hused)
      (sub_nonpos.mpr (hstronger t hused habove))
  rw [← Finset.sum_filter_add_sum_filter_not _ (· < level)] at hregret
  linarith

/-- After every run no values that satisfy the required constraints, and violate no
stronger level more than the values of the variables do, gain more at a level than they
lose at the weaker ones, everything weighted by its strength. -/
theorem gains_are_paid_by_weaker_preferences (settings : Settings Rat) (limit : Nat)
    {calls : List (SolverCall Rat)} {answers : List (SolverAnswer Rat)}
    (hw : ∀ call ∈ calls, call.Weighted)
    (hrun : (empty settings).run limit calls = .ok (s, answers)) :
    ∀ level ∈ levels s.asks, ¬ ∃ ν : Variable → Rat,
      (∀ c ∈ s.constraints.keys, c.strength.isRequired = true → c.Holds ν) ∧
      (∀ t ∈ levels s.asks, level < t →
        violationAt ν s.asks t ≤ violationAt s.value s.asks t) ∧
      ∑ t ∈ (levels s.asks).filter (· < level),
          t * (violationAt ν s.asks t - violationAt s.value s.asks t) <
        level * (violationAt s.value s.asks level - violationAt ν s.asks level) := by
  rintro level hlevel ⟨ν, hν, hstronger, hgain⟩
  have hsound : s.Sound := sound_run settings limit hw _ hrun
  exact absurd hgain (not_lt.mpr (hsound.gain_le hν hlevel hstronger))

/-- A medium preference for zero and a weak one of two thousand times the scale for one:
the weak one wins, and going back to zero costs more than it gains. -/
theorem gain_of_medium_preference_is_paid :
    ∃ (s : Solver Rat) (answers : List (SolverAnswer Rat)),
      (empty .standard).run 9 [
        .add ⟨"keep", ⟨[.symbolic ⟨.entity ⟨0⟩, .width⟩ 1], 0⟩, .equalTo, .medium⟩,
        .add ⟨"reach", ⟨[.symbolic ⟨.entity ⟨0⟩, .width⟩ 2000], -2000⟩, .equalTo, .weak⟩] =
          .ok (s, answers) ∧
      s.value ⟨.entity ⟨0⟩, .width⟩ = 1 ∧
      ¬ ∃ ν : Variable → Rat,
        (∀ c ∈ s.constraints.keys, c.strength.isRequired = true → c.Holds ν) ∧
        (∀ t ∈ levels s.asks, 1000 < t →
          violationAt ν s.asks t ≤ violationAt s.value s.asks t) ∧
        ∑ t ∈ (levels s.asks).filter (· < 1000),
            t * (violationAt ν s.asks t - violationAt s.value s.asks t) <
          1000 * (violationAt s.value s.asks 1000 - violationAt ν s.asks 1000) := by
  have hchain : ((empty .standard : Solver Rat).run 9 [
      .add ⟨"keep", ⟨[.symbolic ⟨.entity ⟨0⟩, .width⟩ 1], 0⟩, .equalTo, .medium⟩,
      .add ⟨"reach", ⟨[.symbolic ⟨.entity ⟨0⟩, .width⟩ 2000], -2000⟩, .equalTo,
        .weak⟩]).toOption.any (fun p => decide (p.1.value ⟨.entity ⟨0⟩, .width⟩ = 1) &&
          decide (1000 ∈ levels p.1.asks)) = true := by
    decide +kernel
  obtain ⟨⟨s, answers⟩, hrun, hrest⟩ := exists_ok_of_any hchain
  obtain ⟨hvalue, hlevel⟩ := Bool.and_eq_true_iff.mp hrest
  exact ⟨s, answers, hrun, of_decide_eq_true hvalue, gains_are_paid_by_weaker_preferences
    .standard 9 (by decide +kernel) hrun 1000 (of_decide_eq_true hlevel)⟩

/-- The levels are no strict hierarchy: with the same two preferences, nothing required
and nothing stronger than medium, there are values that violate the medium one less than
the values of the variables do. -/
theorem medium_preference_is_traded_for_weak :
    ∃ (s : Solver Rat) (answers : List (SolverAnswer Rat)) (ν : Variable → Rat),
      (empty .standard).run 9 [
        .add ⟨"keep", ⟨[.symbolic ⟨.entity ⟨0⟩, .width⟩ 1], 0⟩, .equalTo, .medium⟩,
        .add ⟨"reach", ⟨[.symbolic ⟨.entity ⟨0⟩, .width⟩ 2000], -2000⟩, .equalTo, .weak⟩] =
          .ok (s, answers) ∧
      (Strength.medium : Strength Rat).value ∈ levels s.asks ∧
      (∀ c ∈ s.constraints.keys, c.strength.isRequired = true → c.Holds ν) ∧
      (∀ t ∈ levels s.asks, (Strength.medium : Strength Rat).value < t →
        violationAt ν s.asks t ≤ violationAt s.value s.asks t) ∧
      violationAt ν s.asks (Strength.medium : Strength Rat).value <
        violationAt s.value s.asks (Strength.medium : Strength Rat).value := by
  have hchain : ((empty .standard : Solver Rat).run 9 [
      .add ⟨"keep", ⟨[.symbolic ⟨.entity ⟨0⟩, .width⟩ 1], 0⟩, .equalTo, .medium⟩,
      .add ⟨"reach", ⟨[.symbolic ⟨.entity ⟨0⟩, .width⟩ 2000], -2000⟩, .equalTo,
        .weak⟩]).toOption.any (fun p =>
          decide ((Strength.medium : Strength Rat).value ∈ levels p.1.asks) &&
          p.1.constraints.keys.all (fun c => !c.strength.isRequired) &&
          p.1.asks.all
            (fun c => decide (c.strength.value ≤ (Strength.medium : Strength Rat).value)) &&
          decide (violationAt (fun _ => 0) p.1.asks (Strength.medium : Strength Rat).value <
            violationAt p.1.value p.1.asks (Strength.medium : Strength Rat).value)) = true := by
    decide +kernel
  obtain ⟨⟨s, answers⟩, hrun, hrest⟩ := exists_ok_of_any hchain
  simp only [Bool.and_eq_true, decide_eq_true_eq, List.all_eq_true, Bool.not_eq_true'] at hrest
  obtain ⟨⟨⟨hlevel, hpreferences⟩, hhighest⟩, hless⟩ := hrest
  refine ⟨s, answers, fun _ => 0, hrun, hlevel, fun c hc hr => ?_, fun t ht habove => ?_, hless⟩
  · rw [hpreferences c hc] at hr
    cases hr
  · obtain ⟨c, hc, -, rfl⟩ := mem_levels_iff.mp ht
    exact absurd habove (not_lt.mpr (hhighest c hc))

end Solver
end Tether
