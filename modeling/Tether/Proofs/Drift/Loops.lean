import Tether.Proofs.Drift.Retracing

/-!
# Losses of loops

A loop loses no more than its limit allows pivots.  The symbols that it chooses have
coefficients other than zero, so every pivot is retraced.
-/

namespace Tether

open Simplex

namespace Simplex

section Counting

variable {σ : Type} {step : σ → Step σ} {I : Nat → σ → Prop}

/-- What is counted up by one with each pivot is counted up to the limit by a loop. -/
theorem ensures_iterate_counting (hmono : ∀ j s, I j s → I (j + 1) s)
    (hstep : ∀ j s, I j s → (step s).Keeps (I (j + 1)) (fun p => I j p.1)) (limit : Nat)
    {j : Nat} {s : σ} (hs : I j s) :
    Ensures (iterate step limit s) (fun p => I (j + limit) p.1) := by
  induction limit generalizing j s with
  | zero =>
      have h := hstep j s hs
      unfold iterate
      cases hr : step s with
      | finished s' => rw [hr] at h; exact ensures_ok h
      | stuck s' why => rw [hr] at h; exact ensures_ok h
      | pivoted s' => exact ensures_error _
  | succ limit ih =>
      have hmore : ∀ k s, I j s → I (j + k) s := by
        intro k
        induction k with
        | zero => exact fun _ hs => hs
        | succ k ihk => exact fun s hs => hmono _ _ (ihk s hs)
      have h := hstep j s hs
      unfold iterate
      cases hr : step s with
      | finished s' => rw [hr] at h; exact ensures_ok (hmore _ _ h)
      | stuck s' why => rw [hr] at h; exact ensures_ok (hmore _ _ h)
      | pivoted s' =>
          rw [hr] at h
          have hrest := ih h
          rwa [Nat.add_right_comm] at hrest

end Counting

section Choices

variable {β : Type} {l : List β} {key : β → Symbol} {p : β → Bool} {f : β → Coarse} {x : Symbol}

/-- The symbol that is chosen is that of a candidate. -/
theorem exists_of_least_filterMap (h : least? Scalar.bounded (l.filterMap (fun b =>
      if p b = true then some (key b, f b) else none)) = some x) :
    ∃ b ∈ l, key b = x ∧ p b = true := by
  obtain ⟨v, hv⟩ := exists_mem_of_least? _ h
  obtain ⟨b, hb, he⟩ := List.mem_filterMap.mp hv
  split at he
  · rename_i hp
    cases he
    exact ⟨b, hb, rfl, hp⟩
  · cases he

end Choices

end Simplex

section Signs

variable {a : Coarse}

theorem Coarse.ne_zero_of_negative (h : Scalar.negative a = true) : a.value ≠ 0 :=
  ne_of_lt (decide_eq_true_iff.mp h)

theorem Coarse.ne_zero_of_positive (h : Scalar.positive a = true) : a.value ≠ 0 :=
  ne_of_gt (decide_eq_true_iff.mp h)

theorem Coarse.ne_zero_of_isZero (h : Scalar.isZero a = false) : a.value ≠ 0 :=
  decide_eq_false_iff_not.mp h

end Signs

namespace Solver

variable {s w : Solver Coarse} {leaving entering : Symbol} {r : Row Coarse} {j : Nat}

section Choices

/-- The row that leaves mentions the entering symbol. -/
theorem exhausted_coefficient {t : Tableau Coarse}
    (h : withRow t (leaving? t entering) = some (leaving, r)) :
    (leaving, r) ∈ t.basics ∧ r.exact.coefficient entering ≠ 0 := by
  obtain ⟨hleast, hrow⟩ := withRow_eq_some_iff.mp h
  obtain ⟨b, hb, rfl, hcond⟩ := exists_of_least_filterMap hleast
  obtain rfl : b.2 = r := by
    rw [(Tableau.mem_basics_iff.mp hb).2] at hrow
    exact Option.some.inj hrow
  refine ⟨hb, ?_⟩
  rw [Row.coefficient_exact]
  exact Coarse.ne_zero_of_negative (Bool.and_eq_true_iff.mp hcond).2

theorem dualEntering_coefficient (hr : r.Ordered) (h : s.dualEntering? r = some entering) :
    r.exact.coefficient entering ≠ 0 := by
  obtain ⟨c, hc, rfl, hcond⟩ := exists_of_least_filterMap h
  have hget := hr.get?_eq_some_iff.mpr (show (c.1, c.2) ∈ r.cells from hc)
  rw [Row.coefficient_exact, Row.coefficient, hget]
  exact Coarse.ne_zero_of_positive (Bool.and_eq_true_iff.mp hcond).1

end Choices

section Loops

/-- A solver in solved form that has been pivoted so many times at most. -/
structure Pivoted (s : Solver Coarse) (j : Nat) (w : Solver Coarse) : Prop where
  proper : w.Proper
  retraces : Retraces j Reach.id ∅ s w

theorem Proper.pivoted (h : s.Proper) : Pivoted s 0 s :=
  ⟨h, .refl s⟩

theorem Pivoted.succ (h : Pivoted s j w) : Pivoted s (j + 1) w :=
  ⟨h.proper, h.retraces.mono (Nat.le_succ j) (le_refl _) (Set.Subset.refl _)⟩

theorem Pivoted.withInfeasible (h : Pivoted s j w) {l : List Symbol}
    (hl : ∀ x ∈ l, x ∈ w.infeasible) : Pivoted s j { w with infeasible := l } :=
  ⟨h.proper.withInfeasible hl, ⟨h.retraces.count, h.retraces.back⟩⟩

theorem Pivoted.pivot (h : Pivoted s j w) (hl : (leaving, r) ∈ w.tableau.basics)
    (ha : r.exact.coefficient entering ≠ 0) :
    Pivoted s (j + 1) ((w.dropRow leaving).pivot leaving entering r) := by
  obtain ⟨hk, hr⟩ := Tableau.mem_basics_iff.mp hl
  have hm := Row.mem_symbols_of_exact ha
  refine ⟨h.proper.pivot hk hr ((h.proper.rows.admits_coarse hl).parametric _ hm).1, ?_⟩
  have htrans := h.retraces.trans (h.proper.retraces_pivot hl ha)
  rwa [Reach.comp_id, Set.union_empty] at htrans

theorem Pivoted.primalStep (h : Pivoted s j w) (goal : Goal) :
    (primalStep goal w).Keeps (Pivoted s (j + 1)) (fun p => Pivoted s j p.1) := by
  unfold Solver.primalStep
  split
  · exact h
  · split
    · exact h
    · split
      · exact h
      · rename_i leaving r hrow
        obtain ⟨hl, ha⟩ := exhausted_coefficient hrow
        exact h.pivot hl ha

theorem Pivoted.dualStep (h : Pivoted s j w) :
    (dualStep w).Keeps (Pivoted s (j + 1)) (fun p => Pivoted s j p.1) := by
  unfold Solver.dualStep
  split
  · exact h.withInfeasible (by simp)
  · rename_i leaving hleave
    have hrecorded : leaving ∈ w.infeasible :=
      List.mem_of_mem_filter (mem_stillInfeasible_of_mostInfeasible? hleave)
    have hrest : Pivoted s j { w with infeasible := w.stillInfeasible.filter (· ≠ leaving) } :=
      h.withInfeasible (fun x hx => List.mem_of_mem_filter (List.mem_of_mem_filter hx))
    dsimp only
    split
    · exact hrest
    · rename_i r hr
      split
      · exact hrest
      · rename_i entering hent
        have hl := Tableau.mem_basics_iff.mpr ⟨h.proper.infeasible leaving hrecorded, hr⟩
        exact hrest.pivot hl
          (dualEntering_coefficient (h.proper.rows.admits_coarse hl).ordered hent)

/-- The primal loop loses as much as its limit allows. -/
theorem Proper.pivoted_optimize (h : s.Proper) (goal : Goal) (limit : Nat) :
    Ensures (s.optimize goal limit) (fun p => Pivoted s limit p.1) := by
  have hloop := ensures_iterate_counting (I := Pivoted s) (fun _ _ hw => hw.succ)
    (fun _ _ hw => hw.primalStep goal) limit h.pivoted
  rwa [Nat.zero_add] at hloop

/-- The dual loop loses as much as its limit allows. -/
theorem Proper.pivoted_dualOptimize (h : s.Proper) (limit : Nat) :
    Ensures (s.dualOptimize limit) (fun p => Pivoted s limit p.1) := by
  have hloop := ensures_iterate_counting (I := Pivoted s) (fun _ _ hw => hw.succ)
    (fun _ _ hw => hw.dualStep) limit h.pivoted
  rwa [Nat.zero_add] at hloop

end Loops

end Solver
end Tether
