import Tether.Proofs.Exact.Primal

/-!
# The dual loop

A dual step keeps the objective settled and changes neither the solutions nor
the objectives on them.  Every restricted symbol that is negative is recorded,
and as long as there is a lawful solution some symbol can raise it, so the loop
ends in a feasible solver.
-/

namespace Tether

open Simplex

namespace Solver

variable {s u : Solver Rat} {r g : Row Rat} {entering leaving x : Symbol}

section Choices

/-- The entering symbol raises the row and costs the objective least. -/
theorem raises_of_dualEntering? (hr : r.Ordered) (h : s.dualEntering? r = some entering) :
    0 < r.coefficient entering ∧ entering.tier ≠ 0 ∧
      ∀ x, x.tier ≠ 0 → 0 < r.coefficient x →
        s.objective.coefficient entering / r.coefficient entering ≤
          s.objective.coefficient x / r.coefficient x := by
  obtain ⟨c, hc, rfl, hcond, hmin⟩ := exists_least_filterMap h
  obtain ⟨hpos, hdummy⟩ := Bool.and_eq_true_iff.mp hcond
  have hcoeff := hr.coefficient_of_mem hc
  refine ⟨?_, Symbol.isDummy_eq_false_iff.mp (by simpa using hdummy), ?_⟩
  · rw [hcoeff]
    exact Scalar.positive_iff.mp hpos
  · intro x hx hxpos
    obtain ⟨a, hm⟩ := Row.mem_symbols_iff.mp (Row.mem_symbols_of_coefficient (ne_of_gt hxpos))
    have ha : r.coefficient x = a := hr.coefficient_of_mem hm
    have hd : x.isDummy = false := Symbol.isDummy_eq_false_iff.mpr hx
    rw [hcoeff, ha]
    exact hmin (x, a) hm (Bool.and_eq_true_iff.mpr
      ⟨Scalar.positive_iff.mpr (ha ▸ hxpos), by simp [hd]⟩)

/-- If no symbol can enter, then none raises the row. -/
theorem lowers_of_dualEntering? (hr : r.Ordered) (h : s.dualEntering? r = none) :
    r.negate.Settled := by
  intro x hx
  rw [Row.coefficient_negate hr]
  by_contra hneg
  have hpos : 0 < r.coefficient x := by linarith
  obtain ⟨a, hm⟩ := Row.mem_symbols_iff.mp (Row.mem_symbols_of_coefficient (ne_of_gt hpos))
  have ha : r.coefficient x = a := hr.coefficient_of_mem hm
  have hd : x.isDummy = false := Symbol.isDummy_eq_false_iff.mpr hx
  have hcond := eq_false_of_least_filterMap h hm
  rw [hd, Bool.not_false, Bool.and_true, Scalar.positive_eq_false_iff] at hcond
  dsimp only at hcond
  linarith

/-- What costs least may enter: the objective stays settled. -/
theorem settled_exchange (hg : g.Ordered) (hr : r.Ordered) (hs : g.Settled)
    (hne : leaving ≠ entering) (hl : leaving ∉ r.symbols) (ha : 0 < r.coefficient entering)
    (ht : entering.tier ≠ 0)
    (hmin : ∀ x, x.tier ≠ 0 → 0 < r.coefficient x →
      g.coefficient entering / r.coefficient entering ≤ g.coefficient x / r.coefficient x) :
    (g.substitute entering (r.exchange leaving entering)).Settled := by
  intro x hx
  have hcost := div_nonneg (hs entering ht) (le_of_lt ha)
  rw [hg.coefficient_substitute (Row.ordered_exchange hr leaving entering),
    Row.coefficient_exchange hr hne (ne_of_gt ha) hl]
  by_cases he : x = entering
  · rw [if_pos he, if_pos he, mul_zero, add_zero]
  · rw [if_neg he, if_neg he]
    by_cases hxl : x = leaving
    · rw [if_pos hxl, mul_one_div]
      exact add_nonneg (hs x hx) hcost
    · rw [if_neg hxl]
      have hsplit : g.coefficient entering * (-r.coefficient x / r.coefficient entering) =
          -(g.coefficient entering / r.coefficient entering * r.coefficient x) := by
        ring
      rw [hsplit]
      by_cases hpos : 0 < r.coefficient x
      · have hratio := mul_le_mul_of_nonneg_right (hmin x hx hpos) (le_of_lt hpos)
        rw [div_mul_cancel₀ _ (ne_of_gt hpos)] at hratio
        linarith
      · have := mul_nonneg hcost (neg_nonneg.mpr (le_of_not_gt hpos))
        linarith [hs x hx]

end Choices

section Records

/-- Every restricted basic symbol that is negative is recorded. -/
def Covered (s : Solver Rat) : Prop :=
  ∀ b ∈ s.tableau.basics, b.1.tier = 1 → b.2.constant < 0 → b.1 ∈ s.infeasible

/-- Only restricted symbols are recorded. -/
def Recorded (s : Solver Rat) : Prop :=
  ∀ x ∈ s.infeasible, x.tier = 1

theorem isInfeasible_iff : s.isInfeasible x = true ↔
    ∃ r, s.tableau.row? x = some r ∧ r.constant < 0 := by
  unfold isInfeasible
  cases hr : s.tableau.row? x with
  | none => simp
  | some r =>
      rw [Option.any_some]
      constructor
      · exact fun h => ⟨r, rfl, Scalar.infeasible_iff.mp h⟩
      · rintro ⟨r', he, hlow⟩
        cases he
        exact Scalar.infeasible_iff.mpr hlow

/-- A row that mentions the symbol and becomes negative is recorded. -/
theorem mem_infeasible_modifyMentioning {f : Row Rat → Row Rat} {b : Symbol × Row Rat}
    (hb : b ∈ s.tableau.basics) (hx : x ∈ b.2.symbols) (ht : b.1.tier = 1)
    (hlow : (f b.2).constant < 0) : b.1 ∈ (s.modifyMentioning x f).infeasible := by
  obtain ⟨hk, hr⟩ := Tableau.mem_basics_iff.mp hb
  rw [infeasible_modifyMentioning]
  refine List.mem_append_right _ (List.mem_filter.mpr ⟨?_, ?_⟩)
  · exact Tableau.mem_mentioning_iff.mpr ⟨hk, b.2, hr, hx⟩
  · have hrow : (s.modifyMentioning x f).tableau.row? b.1 = some (f b.2) := by
      have h := Tableau.rowAt?_modifyMentioning_if s.tableau x f b.1.id
      have hr' : s.tableau.rowAt? b.1.id = some b.2 := hr
      rw [hr', Option.map_some, if_pos (Row.contains_iff.mpr hx)] at h
      exact h
    have hext : b.1.isExternal = false := Symbol.isExternal_eq_false_iff.mpr (by omega)
    rw [hext, isInfeasible_iff.mpr ⟨_, hrow, hlow⟩]
    rfl

/-- Changing the rows that mention a restricted symbol records no dummies. -/
theorem Layered.recorded_modifyMentioning (h : s.Layered) (hr : s.Recorded)
    (hx : x.tier = 1) (f : Row Rat → Row Rat) : (s.modifyMentioning x f).Recorded := by
  intro y hy
  rw [infeasible_modifyMentioning] at hy
  rcases List.mem_append.mp hy with hy | hy
  · exact hr y hy
  · obtain ⟨hm, hcond⟩ := List.mem_filter.mp hy
    obtain ⟨hk, p, hp, hxp⟩ := Tableau.mem_mentioning_iff.mp hm
    have hle := (h.rows (y, p) (Tableau.mem_basics_iff.mpr ⟨hk, hp⟩)).tiers x hxp
    have hext : y.isExternal = false := by
      simpa using (Bool.and_eq_true_iff.mp hcond).1
    have hne := Symbol.isExternal_eq_false_iff.mp hext
    have hle₂ := y.tier_le_two
    dsimp only at hle
    omega

theorem infeasible_enter (s : Solver Rat) (x : Symbol) (q : Row Rat) :
    (s.enter x q).infeasible =
      (s.modifyMentioning x (fun r => r.substitute x q)).infeasible := by
  rfl

/-- A symbol that enters with a value that is not negative leaves nothing
uncovered. -/
theorem Covered.enter {q : Row Rat} (h : s.Covered) (hx : s.tableau.Knows x)
    (hq : 0 ≤ q.constant) : (s.enter x q).Covered := by
  intro b hb ht hlow
  rw [infeasible_enter]
  rcases (mem_basics_enter hx).mp hb with rfl | ⟨-, p, hp, hsub⟩
  · exact absurd hlow (not_lt.mpr hq)
  · rw [hsub] at hlow
    by_cases hin : x ∈ p.symbols
    · exact mem_infeasible_modifyMentioning (b := (b.1, p)) hp hin ht hlow
    · rw [Row.substitute_of_notMem hin] at hlow
      rw [infeasible_modifyMentioning]
      exact List.mem_append_left _ (h (b.1, p) hp ht hlow)

theorem Layered.recorded_enter {q : Row Rat} (h : s.Layered) (hr : s.Recorded)
    (hx : x.tier = 1) : (s.enter x q).Recorded := by
  intro y hy
  rw [infeasible_enter] at hy
  exact h.recorded_modifyMentioning hr hx _ y hy

end Records

section Loop

/-- A solver on the way to feasibility, equivalent to a given one. -/
structure Restoring (s u : Solver Rat) : Prop where
  layered : u.Layered
  settled : u.objective.Settled
  covered : u.Covered
  recorded : u.Recorded
  equivalent : s.Equivalent u

theorem mem_stillInfeasible_iff : x ∈ u.stillInfeasible ↔
    x ∈ u.infeasible ∧ ∃ r, u.tableau.row? x = some r ∧ r.constant < 0 := by
  rw [stillInfeasible, List.mem_filter, isInfeasible_iff]

/-- The solver that a dual pivot starts from: the leaving symbol is off the
record and its row is out. -/
def released (u : Solver Rat) (leaving : Symbol) : Solver Rat :=
  dropRow { u with infeasible := u.stillInfeasible.filter (· ≠ leaving) } leaving

theorem mem_infeasible_released :
    x ∈ (u.released leaving).infeasible ↔ x ∈ u.stillInfeasible ∧ x ≠ leaving := by
  have h : (u.released leaving).infeasible = u.stillInfeasible.filter (· ≠ leaving) := rfl
  rw [h, List.mem_filter, decide_eq_true_eq]

theorem Restoring.covered_released (h : Restoring s u) (hk : u.tableau.Knows leaving) :
    (u.released leaving).Covered := by
  intro b hb ht hlow
  obtain ⟨hbm, hne⟩ := (mem_basics_dropRow hk).mp hb
  have hcov := h.covered b hbm ht hlow
  exact mem_infeasible_released.mpr ⟨mem_stillInfeasible_iff.mpr
    ⟨hcov, b.2, (Tableau.mem_basics_iff.mp hbm).2, hlow⟩, hne⟩

theorem Restoring.recorded_released (h : Restoring s u) : (u.released leaving).Recorded := by
  intro x hx
  have hm := (mem_infeasible_released.mp hx).1
  exact h.recorded x (mem_stillInfeasible_iff.mp hm).1

/-- A dual pivot goes on restoring. -/
theorem Restoring.pivot (h : Restoring s u) (hm : leaving ∈ u.stillInfeasible)
    (hr : u.tableau.row? leaving = some r) (he : u.dualEntering? r = some entering) :
    Restoring s ((u.released leaving).pivot leaving entering r) := by
  obtain ⟨hmem, r', hr', hlow⟩ := mem_stillInfeasible_iff.mp hm
  obtain rfl : r = r' := by
    rw [hr] at hr'
    exact Option.some.inj hr'
  have hk := h.layered.proper.infeasible leaving hmem
  have hb : (leaving, r) ∈ u.tableau.basics := Tableau.mem_basics_iff.mpr ⟨hk, hr⟩
  have hordered := h.layered.ordered hb
  obtain ⟨ha, ht, hmin⟩ := raises_of_dualEntering? hordered he
  have hem := Row.mem_symbols_of_coefficient (ne_of_gt ha)
  have hne := h.layered.proper.ne_of_basic hb hem
  have hlt := h.recorded leaving hmem
  have htier : entering.tier = leaving.tier := by
    have := (h.layered.rows _ hb).tiers entering hem
    dsimp only at this
    omega
  have hl : Layered { u with infeasible := u.stillInfeasible.filter (· ≠ leaving) } :=
    h.layered.withInfeasible (fun x hx => List.mem_of_mem_filter (List.mem_of_mem_filter hx))
  have hke : (u.released leaving).tableau.Knows entering :=
    knows_dropRow.mpr ((h.layered.proper.rows.admits hb).parametric entering hem).1
  have hq : 0 ≤ (r.exchange leaving entering).constant := by
    rw [Row.constant_exchange hordered hne (ne_of_gt ha)]
    exact div_nonneg (by linarith) (le_of_lt ha)
  refine ⟨hl.pivot hb (ne_of_gt ha) htier, ?_, (h.covered_released hk).enter hke hq,
    (hl.dropRow leaving).recorded_enter h.recorded_released (htier.trans hlt), ?_⟩
  · have hnot : leaving ∉ r.symbols := fun hself => h.layered.proper.ne_of_basic hb hself rfl
    exact settled_exchange h.layered.proper.objective.ordered hordered h.settled hne hnot ha
      ht hmin
  · have hsame : s.Equivalent { u with
        infeasible := u.stillInfeasible.filter (· ≠ leaving) } :=
      ⟨h.equivalent.knows, h.equivalent.solves, h.equivalent.objective, h.equivalent.artificial⟩
    exact hsame.trans (equivalent_pivot hl.proper hb (ne_of_gt ha))

/-- If nothing recorded is negative, then the solver is feasible. -/
theorem Restoring.feasible (h : Restoring s u) (hnone : u.mostInfeasible? = none) :
    u.Feasible := by
  have hnil : u.stillInfeasible = [] := by
    unfold mostInfeasible? at hnone
    split at hnone
    · assumption
    · cases hnone
  intro b hb ht
  by_contra hlow
  have hlow := lt_of_not_ge hlow
  have hm := mem_stillInfeasible_iff.mpr
    ⟨h.covered b hb ht hlow, b.2, (Tableau.mem_basics_iff.mp hb).2, hlow⟩
  rw [hnil] at hm
  cases hm

/-- If there is a lawful solution, then a negative row can be raised. -/
theorem Restoring.dualEntering?_ne_none (h : Restoring s u) {σ : Symbol → Rat}
    (hσ : s.tableau.Solves σ) (hlaw : s.tableau.Lawful σ) (hm : leaving ∈ u.stillInfeasible)
    (hr : u.tableau.row? leaving = some r) : u.dualEntering? r ≠ none := by
  intro hnone
  obtain ⟨hmem, r', hr', hlow⟩ := mem_stillInfeasible_iff.mp hm
  obtain rfl : r = r' := by
    rw [hr] at hr'
    exact Option.some.inj hr'
  have hk := h.layered.proper.infeasible leaving hmem
  have hb : (leaving, r) ∈ u.tableau.basics := Tableau.mem_basics_iff.mpr ⟨hk, hr⟩
  have ht := h.recorded leaving hmem
  have hlaw := h.equivalent.lawful_iff.mpr hlaw
  have hadmits := h.layered.proper.rows.admits hb
  have hwithin : r.Within 1 := ht ▸ h.layered.rows _ hb
  have hle := (lowers_of_dualEntering? hadmits.ordered hnone).constant_le hadmits.negate
    hwithin.negate hlaw
  rw [Row.eval_negate] at hle
  have hconst : r.negate.constant = -r.constant := rfl
  have heq : σ leaving = r.eval σ := (h.equivalent.solves σ).mpr hσ _ hb
  have hpos := hlaw.nonneg leaving hk ht
  linarith

theorem Restoring.dualStep (h : Restoring s u) {σ : Symbol → Rat}
    (hσ : s.tableau.Solves σ) (hlaw : s.tableau.Lawful σ) :
    (dualStep u).Keeps (Restoring s) (fun p => p.2 = .ok () ∧ Lowering s p.1 ∧
      p.1.objective.Settled) := by
  unfold Solver.dualStep
  split
  · rename_i hnone
    refine ⟨rfl, ⟨h.layered.withInfeasible (by simp), h.feasible hnone, ?_⟩, h.settled⟩
    exact ⟨h.equivalent.knows, h.equivalent.solves, h.equivalent.objective,
      h.equivalent.artificial⟩
  · rename_i leaving hleave
    have hm := mem_stillInfeasible_of_mostInfeasible? hleave
    dsimp only
    split
    · rename_i hnone
      obtain ⟨-, r, hr, -⟩ := mem_stillInfeasible_iff.mp hm
      rw [hr] at hnone
      cases hnone
    · rename_i r hr
      split
      · rename_i hnone
        exact absurd hnone (h.dualEntering?_ne_none hσ hlaw hm hr)
      · rename_i entering hent
        exact h.pivot hm hr hent

/-- If there is a lawful solution, then restoring feasibility succeeds. -/
theorem Restoring.dualOptimize (h : Restoring s u) {σ : Symbol → Rat}
    (hσ : s.tableau.Solves σ) (hlaw : s.tableau.Lawful σ) (limit : Nat) :
    Ensures (u.dualOptimize limit) (fun p => p.2 = .ok () ∧ Lowering s p.1 ∧
      p.1.objective.Settled) := by
  refine ensures_iterate (I := Restoring s) ?_ limit h
  exact fun u hu => hu.dualStep hσ hlaw

end Loop

end Solver
end Tether
