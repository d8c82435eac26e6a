import Tether.Proofs.Exact.Tiers

/-!
# The primal loop

A primal step keeps a feasible solver feasible and changes neither the
solutions nor the objectives on them.  It cannot find an objective unbounded
that is bounded, so the loop ends with an objective that is settled: least at
the basic solution.
-/

namespace Tether
namespace Simplex

section Least

variable {admits : Rat → Bool}

/-- A candidate that is kept passes the test, and is no larger than the best so far and the
new one. -/
theorem le_of_improve (hd : ∀ a b, a ≤ b → admits b = true → admits a = true)
    {best : Option (Cell Rat)} {d e : Cell Rat} (h : improve admits best d = some e)
    (hb : ∀ b ∈ best, admits b.2 = true) :
    admits e.2 = true ∧ (∀ b ∈ best, e.2 ≤ b.2) ∧ e.2 ≤ d.2 := by
  cases best with
  | none =>
      by_cases ha : admits d.2 = true
      · obtain rfl : d = e := by simpa [improve, ha] using h
        exact ⟨ha, by simp, le_refl d.2⟩
      · simp [improve, ha] at h
  | some b =>
      have hadmits : admits b.2 = true := hb b rfl
      by_cases hlt : d.2 < b.2
      · obtain rfl : d = e := by simpa [improve, Scalar.less, hlt] using h
        exact ⟨hd _ _ (le_of_lt hlt) hadmits, by simpa using le_of_lt hlt, le_refl d.2⟩
      · obtain rfl : b = e := by simpa [improve, Scalar.less, hlt] using h
        exact ⟨hadmits, by simp, le_of_not_gt hlt⟩

theorem eq_none_of_improve {best : Option (Cell Rat)} {d : Cell Rat}
    (h : improve admits best d = none) : best = none ∧ admits d.2 = false := by
  cases best with
  | none => simpa [improve] using h
  | some b => by_cases hlt : d.2 < b.2 <;> simp [improve, Scalar.less, hlt] at h

/-- The fold finds a least candidate, if whatever is below a candidate that
passes the test passes it too. -/
theorem foldl_improve_le (hd : ∀ a b, a ≤ b → admits b = true → admits a = true)
    {l : List (Cell Rat)} {best : Option (Cell Rat)} {c : Cell Rat}
    (h : l.foldl (improve admits) best = some c) (hb : ∀ b ∈ best, admits b.2 = true) :
    admits c.2 = true ∧ (∀ b ∈ best, c.2 ≤ b.2) ∧ ∀ d ∈ l, c.2 ≤ d.2 := by
  induction l generalizing best with
  | nil =>
      obtain rfl : best = some c := h
      exact ⟨hb c rfl, by simp, by simp⟩
  | cons d rest ih =>
      rw [List.foldl_cons] at h
      cases himp : improve admits best d with
      | none =>
          obtain ⟨rfl, ha⟩ := eq_none_of_improve himp
          obtain ⟨hc, -, hrest⟩ := ih h (by simp [himp])
          refine ⟨hc, by simp, List.forall_mem_cons.mpr ⟨?_, hrest⟩⟩
          by_contra hlt
          rw [hd _ _ (le_of_not_ge hlt) hc] at ha
          cases ha
      | some e =>
          obtain ⟨he, hbest, hle⟩ := le_of_improve hd himp hb
          obtain ⟨hc, hce, hrest⟩ := ih h (by simpa [himp] using he)
          have hce := hce e himp
          exact ⟨hc, fun b hm => hce.trans (hbest b hm),
            List.forall_mem_cons.mpr ⟨hce.trans hle, hrest⟩⟩

theorem exists_least {l : List (Cell Rat)} {x : Symbol}
    (hd : ∀ a b, a ≤ b → admits b = true → admits a = true) (h : least? admits l = some x) :
    ∃ v, (x, v) ∈ l ∧ admits v = true ∧ ∀ c ∈ l, v ≤ c.2 := by
  obtain ⟨c, hc, rfl⟩ := Option.map_eq_some_iff.mp h
  obtain ⟨ha, -, hle⟩ := foldl_improve_le hd hc (by simp)
  rcases mem_foldl_improve admits hc with he | hm
  · cases he
  · exact ⟨c.2, hm, ha, hle⟩

variable {β : Type} {l : List β} {key : β → Symbol} {p : β → Bool} {f : β → Rat} {x : Symbol}

/-- The least of the candidates that some elements of a list make. -/
theorem exists_least_filterMap (h : least? Scalar.bounded (l.filterMap (fun b =>
      if p b = true then some (key b, f b) else none)) = some x) :
    ∃ b ∈ l, key b = x ∧ p b = true ∧ ∀ d ∈ l, p d = true → f b ≤ f d := by
  obtain ⟨v, hv, -, hle⟩ := exists_least (fun _ _ _ _ => rfl) h
  obtain ⟨b, hb, he⟩ := List.mem_filterMap.mp hv
  split at he
  · rename_i hp
    cases he
    refine ⟨b, hb, rfl, hp, fun d hd hpd => ?_⟩
    exact hle (key d, f d) (List.mem_filterMap.mpr ⟨d, hd, if_pos hpd⟩)
  · cases he

theorem eq_false_of_least_filterMap (h : least? Scalar.bounded (l.filterMap (fun b =>
      if p b = true then some (key b, f b) else none)) = none) {b : β} (hb : b ∈ l) :
    p b = false := by
  by_contra hp
  have hp : p b = true := by simpa using hp
  cases (least?_eq_none_iff _).mp h (key b, f b) (List.mem_filterMap.mpr ⟨b, hb, if_pos hp⟩)

end Least

end Simplex

open Simplex

namespace Solver

variable {s : Solver Rat} {r : Row Rat} {entering leaving : Symbol}

section Choices

/-- The entering symbol is restricted and lowers the objective. -/
theorem lowers_of_entering? (hr : r.Ordered) (hw : r.Within 1)
    (h : entering? r = some entering) : r.coefficient entering < 0 ∧ entering.tier = 1 := by
  obtain ⟨v, hv, ha, -⟩ := exists_least (fun a b hab hb =>
    Scalar.negative_iff.mpr (lt_of_le_of_lt hab (Scalar.negative_iff.mp hb))) h
  obtain ⟨hm, hd⟩ := List.mem_filter.mp hv
  have ht : entering.tier ≠ 0 := Symbol.isDummy_eq_false_iff.mp (by simpa using hd)
  have hle := hw.tiers entering (Row.mem_symbols_iff.mpr ⟨v, hm⟩)
  have hcoeff : r.coefficient entering = v := hr.coefficient_of_mem hm
  rw [hcoeff]
  exact ⟨Scalar.negative_iff.mp ha, by omega⟩

/-- An objective that no symbol lowers is settled. -/
theorem settled_of_entering? (hr : r.Ordered) (h : entering? r = none) : r.Settled := by
  intro x hx
  by_cases hc : r.coefficient x = 0
  · rw [hc]
  · obtain ⟨v, hm⟩ := Row.mem_symbols_iff.mp (Row.mem_symbols_of_coefficient hc)
    have hcoeff : r.coefficient x = v := hr.coefficient_of_mem hm
    have hd : x.isDummy = false := Symbol.isDummy_eq_false_iff.mpr hx
    have hv := (least?_eq_none_iff _).mp h (x, v) (List.mem_filter.mpr ⟨hm, by simp [hd]⟩)
    rw [hcoeff]
    exact Scalar.negative_eq_false_iff.mp hv

/-- The leaving symbol is restricted, is lowered by the entering one and is
exhausted first. -/
theorem exhausted_of_leaving? {t : Tableau Rat}
    (h : withRow t (leaving? t entering) = some (leaving, r)) :
    (leaving, r) ∈ t.basics ∧ leaving.tier = 1 ∧ r.coefficient entering < 0 ∧
      ∀ b ∈ t.basics, b.1.tier = 1 → b.2.coefficient entering < 0 →
        -r.constant / r.coefficient entering ≤ -b.2.constant / b.2.coefficient entering := by
  obtain ⟨hleast, hrow⟩ := withRow_eq_some_iff.mp h
  obtain ⟨b, hb, rfl, hcond, hmin⟩ := exists_least_filterMap hleast
  obtain ⟨hp, hn⟩ := Bool.and_eq_true_iff.mp hcond
  obtain rfl : b.2 = r := by
    rw [(Tableau.mem_basics_iff.mp hb).2] at hrow
    exact Option.some.inj hrow
  refine ⟨hb, Symbol.isPivotable_iff.mp hp, Scalar.negative_iff.mp hn, ?_⟩
  intro d hd ht hlow
  exact hmin d hd (Bool.and_eq_true_iff.mpr
    ⟨Symbol.isPivotable_iff.mpr ht, Scalar.negative_iff.mpr hlow⟩)

/-- If no symbol leaves, then the entering one lowers no restricted symbol. -/
theorem raises_of_leaving? {t : Tableau Rat} (h : withRow t (leaving? t entering) = none)
    {b : Symbol × Row Rat} (hb : b ∈ t.basics) (ht : b.1.tier = 1) :
    0 ≤ b.2.coefficient entering := by
  cases hleast : leaving? t entering with
  | none =>
      have hcond := eq_false_of_least_filterMap hleast hb
      rw [Symbol.isPivotable_iff.mpr ht, Bool.true_and] at hcond
      exact Scalar.negative_eq_false_iff.mp hcond
  | some x =>
      obtain ⟨d, hd, rfl, -, -⟩ := exists_least_filterMap hleast
      rw [hleast] at h
      have := withRow_eq_some_iff.mpr ⟨rfl, (Tableau.mem_basics_iff.mp hd).2⟩
      rw [h] at this
      cases this

end Choices

section Feasibility

variable {x : Symbol} {q : Row Rat}

/-- A symbol may enter a feasible solver if no restricted symbol becomes
negative. -/
theorem Layered.feasible_enter (h : s.Layered) (hx : s.tableau.Knows x)
    (hself : x.tier = 1 → 0 ≤ q.constant)
    (hrows : ∀ b ∈ s.tableau.basics, b.1.tier = 1 →
      0 ≤ b.2.constant + b.2.coefficient x * q.constant) : (s.enter x q).Feasible := by
  intro b hb ht
  rcases (mem_basics_enter hx).mp hb with rfl | ⟨-, r, hr, he⟩
  · exact hself ht
  · rw [he, (h.ordered hr).constant_substitute]
    exact hrows _ hr ht

/-- What is exhausted first may leave. -/
theorem Layered.feasible_pivot (h : s.Layered) (hf : s.Feasible)
    (hl : (leaving, r) ∈ s.tableau.basics) (ht : leaving.tier = 1)
    (ha : r.coefficient entering < 0)
    (hmin : ∀ b ∈ s.tableau.basics, b.1.tier = 1 → b.2.coefficient entering < 0 →
      -r.constant / r.coefficient entering ≤ -b.2.constant / b.2.coefficient entering) :
    ((s.dropRow leaving).pivot leaving entering r).Feasible := by
  have hm := Row.mem_symbols_of_coefficient (ne_of_lt ha)
  have hk := ((h.proper.rows.admits hl).parametric entering hm).1
  have hq := Row.constant_exchange (h.ordered hl) (h.proper.ne_of_basic hl hm) (ne_of_lt ha)
  have hpos : 0 ≤ -r.constant / r.coefficient entering :=
    div_nonneg_of_nonpos (by linarith [hf _ hl ht]) (le_of_lt ha)
  refine (h.dropRow leaving).feasible_enter (knows_dropRow.mpr hk) (fun _ => ?_) ?_
  · rw [hq]
    exact hpos
  · intro b hb hbt
    have hb := mem_of_mem_basics_dropRow hb
    rw [hq]
    by_cases hlow : b.2.coefficient entering < 0
    · have hratio := mul_le_mul_of_nonpos_left (hmin b hb hbt hlow) (le_of_lt hlow)
      rw [mul_div_cancel₀ _ (ne_of_lt hlow)] at hratio
      linarith
    · have := mul_nonneg (le_of_not_gt hlow) hpos
      linarith [hf b hb hbt]

end Feasibility

section Bounds

/-- Some number is below every lawful value of an objective. -/
def BoundedBelow (s : Solver Rat) (goal : Goal) : Prop :=
  ∃ low, ∀ σ, s.tableau.Solves σ → s.tableau.Lawful σ →
    ∀ r ∈ s.goalRow? goal, low ≤ r.eval σ

/-- If a symbol lowers a row and no restricted symbol, then lawful solutions
bring the row as low as one likes. -/
theorem Layered.exists_lower (h : s.Layered) (hf : s.Feasible) (hr : s.tableau.Admits r)
    (ha : r.coefficient entering < 0) (ht : entering.tier = 1)
    (hup : ∀ b ∈ s.tableau.basics, b.1.tier = 1 → 0 ≤ b.2.coefficient entering) (low : Rat) :
    ∃ σ, s.tableau.Solves σ ∧ s.tableau.Lawful σ ∧ r.eval σ < low := by
  have hslope : 0 < -r.coefficient entering := by linarith
  obtain ⟨v, hv, hlow⟩ : ∃ v, 0 ≤ v ∧ r.constant + r.coefficient entering * v < low := by
    refine ⟨(|r.constant - low| + 1) / -r.coefficient entering, ?_, ?_⟩
    · exact div_nonneg (by positivity) (le_of_lt hslope)
    · have hv : r.coefficient entering * ((|r.constant - low| + 1) / -r.coefficient entering) =
          -(|r.constant - low| + 1) := by
        have := ne_of_lt ha
        field_simp
      rw [hv]
      linarith [le_abs_self (r.constant - low)]
  have hray : ∀ p : Row Rat, p.Ordered →
      p.eval (Function.update 0 entering v) = p.constant + p.coefficient entering * v := by
    intro p hp
    rw [hp.eval_update, Row.eval_zero, Pi.zero_apply, sub_zero]
  refine ⟨s.tableau.fill (Function.update 0 entering v), h.proper.rows.solves_fill _, ?_, ?_⟩
  · refine h.lawful_fill (fun x _ => ?_) (fun x hx => ?_) (fun b hb hbt => ?_)
    · by_cases hx : x = entering
      · rw [hx, Function.update_self]
        exact hv
      · rw [Function.update_of_ne hx]
        exact Rat.le_refl
    · rw [Function.update_of_ne (by rintro rfl; omega)]
      rfl
    · rw [hray _ (h.ordered hb)]
      have := mul_nonneg (hup b hb hbt) hv
      linarith [hf b hb hbt]
  · rw [hr.eval_fill, hray r hr.ordered]
    exact hlow

/-- Equivalent solvers have the same goal. -/
theorem Equivalent.goalRow? {u : Solver Rat} (h : s.Equivalent u) (goal : Goal)
    {σ : Symbol → Rat} (hσ : s.tableau.Solves σ) :
    (u.goalRow? goal).map (fun r => r.eval σ) = (s.goalRow? goal).map (fun r => r.eval σ) := by
  cases goal with
  | primary => exact congrArg some (h.objective σ hσ)
  | artificial => exact h.artificial σ hσ

theorem Equivalent.lawful_iff {u : Solver Rat} (h : s.Equivalent u) {σ : Symbol → Rat} :
    u.tableau.Lawful σ ↔ s.tableau.Lawful σ := by
  constructor
  · exact fun hl => ⟨fun x hx => hl.nonneg x ((h.knows x).mpr hx),
      fun x hx => hl.zero x ((h.knows x).mpr hx)⟩
  · exact fun hl => ⟨fun x hx => hl.nonneg x ((h.knows x).mp hx),
      fun x hx => hl.zero x ((h.knows x).mp hx)⟩

theorem Equivalent.boundedBelow {u : Solver Rat} (h : s.Equivalent u) {goal : Goal}
    (hb : s.BoundedBelow goal) : u.BoundedBelow goal := by
  obtain ⟨low, hlow⟩ := hb
  refine ⟨low, fun σ hσ hl r hr => ?_⟩
  have hσ' := (h.solves σ).mp hσ
  have hgoal := h.goalRow? goal hσ'
  rw [hr, Option.map_some] at hgoal
  obtain ⟨p, hp, he⟩ := Option.map_eq_some_iff.mp hgoal.symm
  rw [← he]
  exact hlow σ hσ' (h.lawful_iff.mp hl) p hp

end Bounds

section Loop

/-- A layered and feasible solver that is equivalent to a given one. -/
structure Lowering (s u : Solver Rat) : Prop where
  layered : u.Layered
  feasible : u.Feasible
  equivalent : s.Equivalent u

theorem within_goalRow? (h : s.Layered) {goal : Goal} (hr : s.goalRow? goal = some r) :
    r.Within 1 := by
  cases goal with
  | primary => cases hr; exact h.objective
  | artificial => exact h.artificial r hr

/-- A primal pivot goes on lowering. -/
theorem Lowering.pivot {u : Solver Rat} (h : Lowering s u) {goal : Goal} {g : Row Rat}
    (hg : u.goalRow? goal = some g) (hent : entering? g = some entering)
    (hrow : withRow u.tableau (leaving? u.tableau entering) = some (leaving, r)) :
    Lowering s ((u.dropRow leaving).pivot leaving entering r) := by
  obtain ⟨hl, hf, he⟩ := h
  obtain ⟨-, htier⟩ :=
    lowers_of_entering? (admits_goalRow? hl.proper hg).ordered (within_goalRow? hl hg) hent
  obtain ⟨hm, ht, ha, hmin⟩ := exhausted_of_leaving? hrow
  exact ⟨hl.pivot hm (ne_of_lt ha) (htier.trans ht.symm), hl.feasible_pivot hf hm ht ha hmin,
    he.trans (equivalent_pivot hl.proper hm (ne_of_lt ha))⟩

/-- A primal step goes on, or ends with a settled goal. -/
theorem Lowering.primalStep {u : Solver Rat} (h : Lowering s u) {goal : Goal}
    (hsome : ∀ σ, s.tableau.Solves σ → (s.goalRow? goal).map (fun r => r.eval σ) ≠ none)
    (hb : s.BoundedBelow goal) :
    (primalStep goal u).Keeps (Lowering s) (fun p => p.2 = .ok () ∧ Lowering s p.1 ∧
      ∀ r ∈ p.1.goalRow? goal, r.Settled) := by
  obtain ⟨hl, hf, he⟩ := h
  unfold Solver.primalStep
  split
  · rename_i hnone
    have hσ := hl.proper.rows.solves_fill 0
    have hgoal := he.goalRow? goal ((he.solves _).mp hσ)
    rw [hnone] at hgoal
    exact absurd hgoal.symm (hsome _ ((he.solves _).mp hσ))
  · rename_i g hg
    have hadmits := admits_goalRow? hl.proper hg
    have hwithin := within_goalRow? hl hg
    split
    · rename_i hent
      refine ⟨rfl, ⟨hl, hf, he⟩, fun r hr => ?_⟩
      rw [hg] at hr
      rw [← Option.some.inj hr]
      exact settled_of_entering? hadmits.ordered hent
    · rename_i entering hent
      obtain ⟨hneg, htier⟩ := lowers_of_entering? hadmits.ordered hwithin hent
      split
      · rename_i hstuck
        obtain ⟨low, hlow⟩ := he.boundedBelow hb
        obtain ⟨σ, hσ, hlaw, hlt⟩ := hl.exists_lower hf hadmits hneg htier
          (fun b hb ht => raises_of_leaving? hstuck hb ht) low
        have := hlow σ hσ hlaw g hg
        linarith
      · rename_i leaving r hrow
        exact Lowering.pivot ⟨hl, hf, he⟩ hg hent hrow

/-- Lowering a bounded goal succeeds, and ends where the goal is settled. -/
theorem Layered.optimize (hl : s.Layered) (hf : s.Feasible) (goal : Goal)
    (hsome : s.goalRow? goal ≠ none) (hb : s.BoundedBelow goal) (limit : Nat) :
    Ensures (s.optimize goal limit) (fun p => p.2 = .ok () ∧ Lowering s p.1 ∧
      ∀ r ∈ p.1.goalRow? goal, r.Settled) := by
  have hsome' : ∀ σ, s.tableau.Solves σ →
      (s.goalRow? goal).map (fun r => r.eval σ) ≠ none := by
    intro σ _ hn
    exact hsome (Option.map_eq_none_iff.mp hn)
  refine ensures_iterate (I := Lowering s) ?_ limit ⟨hl, hf, .refl s⟩
  exact fun u hu => hu.primalStep hsome' hb

end Loop

end Solver
end Tether
