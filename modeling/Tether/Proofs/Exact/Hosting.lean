import Tether.Proofs.Exact.Primal
import Tether.Proofs.Solver.LedgerInsertion

/-!
# Taking a row in

A solver hosts a row if it has become one of its equations that the row is
zero.  The row is solved for a subject, which then enters: a variable, or a
symbol made for the constraint with a negative coefficient, or, if there are
only dummies and nothing is left over, the dummy made for the constraint.
-/

namespace Tether
namespace Solver

open Simplex

variable {s u w : Solver Rat} {r : Row Rat} {x : Symbol} {tag : Tag}

/-- A layered and feasible solver whose solutions are those of another one at
which a row is zero, with the same objective. -/
structure Hosts (u : Solver Rat) (r : Row Rat) (w : Solver Rat) : Prop where
  layered : w.Layered
  feasible : w.Feasible
  solves : ∀ σ, w.tableau.Solves σ ↔ u.tableau.Solves σ ∧ r.eval σ = 0
  objective : ∀ σ, w.tableau.Solves σ → w.objective.eval σ = u.objective.eval σ

section Subjects

theorem subject?_of_some (h : subject? r tag = some x) :
    (x ∈ r.symbols ∧ x.tier = 2) ∨
      (∀ y ∈ r.symbols, y.tier ≠ 2) ∧ x ∈ tag.symbols ∧ x.tier = 1 ∧ r.coefficient x < 0 := by
  have hext : ∀ {e : Cell Rat}, e ∈ r.cells.filter (·.1.isExternal) →
      e.1 ∈ r.symbols ∧ e.1.tier = 2 := by
    intro e he
    obtain ⟨hm, hx⟩ := List.mem_filter.mp he
    exact ⟨Row.mem_symbols_iff.mpr ⟨e.2, hm⟩, Symbol.isExternal_iff.mp hx⟩
  obtain ⟨e, he, rfl⟩ := Option.map_eq_some_iff.mp h
  rcases Option.or_eq_some_iff.mp he with he | ⟨-, he⟩
  · exact Or.inl (hext (List.mem_of_find?_eq_some he))
  rcases Option.or_eq_some_iff.mp he with he | ⟨hnone, he⟩
  · exact Or.inl (hext (List.mem_of_mem_head? he))
  · obtain ⟨y, hy, rfl⟩ := Option.map_eq_some_iff.mp he
    have hfree : isFreeSubject r y = true := by simpa using List.find?_some hy
    obtain ⟨hp, hneg⟩ := Bool.and_eq_true_iff.mp hfree
    refine Or.inr ⟨fun z hz ht => ?_, List.mem_of_find?_eq_some hy,
      Symbol.isPivotable_iff.mp hp, Scalar.negative_iff.mp hneg⟩
    obtain ⟨a, ha⟩ := Row.mem_symbols_iff.mp hz
    have hm : (z, a) ∈ r.cells.filter (·.1.isExternal) :=
      List.mem_filter.mpr ⟨ha, Symbol.isExternal_iff.mpr ht⟩
    rw [List.head?_eq_none_iff.mp hnone] at hm
    cases hm

theorem subject?_of_none (h : subject? r tag = none) : ∀ y ∈ r.symbols, y.tier ≠ 2 := by
  intro y hy ht
  obtain ⟨-, h⟩ := Option.or_eq_none_iff.mp (Option.map_eq_none_iff.mp h)
  obtain ⟨hnone, -⟩ := Option.or_eq_none_iff.mp h
  obtain ⟨a, ha⟩ := Row.mem_symbols_iff.mp hy
  have hm : (y, a) ∈ r.cells.filter (·.1.isExternal) :=
    List.mem_filter.mpr ⟨ha, Symbol.isExternal_iff.mpr ht⟩
  rw [List.head?_eq_none_iff.mp hnone] at hm
  cases hm

end Subjects

section Entering

/-- A subject may enter if it is no less free than the row and leaves the
restricted rows as they are. -/
theorem hosts_enter (hl : u.Layered) (hf : u.Feasible) (hr : u.tableau.Admits r)
    (hx : r.coefficient x ≠ 0) (hw : r.Within x.tier)
    (hself : x.tier = 1 → 0 ≤ (r.solveFor x).constant)
    (hrows : ∀ b ∈ u.tableau.basics, b.1.tier = 1 →
      b.2.coefficient x * (r.solveFor x).constant = 0) :
    Hosts u r (u.enter x (r.solveFor x)) := by
  have hpar := hr.parametric x (Row.mem_symbols_of_coefficient hx)
  have hsolve : ∀ σ, σ x = (r.solveFor x).eval σ ↔ r.eval σ = 0 := by
    intro σ
    rw [Row.eval_solveFor hx]
    constructor
    · intro h
      have hz : r.eval σ / r.coefficient x = 0 := by linarith
      exact (div_eq_zero_iff.mp hz).resolve_right hx
    · intro h
      rw [h, zero_div, sub_zero]
  have hnot : x ∉ (r.solveFor x).symbols := by
    rw [Row.symbols_solveFor]
    exact hr.ordered.notMem_symbols_erase x
  refine ⟨hl.enter hpar.1 (hr.solveFor x) hnot (hw.solveFor hx), ?_, fun σ => ?_,
    fun σ hσ => ?_⟩
  · refine hl.feasible_enter hpar.1 hself (fun b hb ht => ?_)
    rw [hrows b hb ht, add_zero]
    exact hf b hb ht
  · rw [solves_enter hl.proper hpar, hsolve, and_comm]
  · have heq := ((solves_enter hl.proper hpar).mp hσ).1
    refine (hl.proper.objective.ordered.eval_substitute x _).trans ?_
    rw [← heq, Function.update_eq_self]

/-- An unrestricted symbol is a subject. -/
theorem hosts_external (hl : u.Layered) (hf : u.Feasible) (hr : u.tableau.Admits r)
    (hw : r.Within 2) (hx : x ∈ r.symbols) (ht : x.tier = 2) :
    Hosts u r (u.enter x (r.solveFor x)) := by
  refine hosts_enter hl hf hr (hw.reduced.coefficient_ne_zero hx) (ht ▸ hw) (by omega) ?_
  intro b hb hbt
  have hnot : x ∉ b.2.symbols := by
    intro hin
    have := (hl.rows b hb).tiers x hin
    omega
  rw [Row.coefficient_of_notMem hnot, zero_mul]

/-- A new restricted symbol with a negative coefficient is a subject, if there
is no unrestricted one. -/
theorem hosts_restricted (hl : u.Layered) (hf : u.Feasible) (hr : u.tableau.Admits r)
    (hw : r.Within 1) (hpos : 0 ≤ r.constant) (ht : x.tier = 1) (hneg : r.coefficient x < 0)
    (hnew : ∀ b ∈ u.tableau.basics, x ∉ b.2.symbols) :
    Hosts u r (u.enter x (r.solveFor x)) := by
  refine hosts_enter hl hf hr (ne_of_lt hneg) (ht ▸ hw) (fun _ => ?_) ?_
  · rw [Row.solveFor_eq (ne_of_lt hneg)]
    exact mul_nonneg hpos (div_nonneg_of_nonpos (by norm_num) (le_of_lt hneg))
  · intro b hb _
    rw [Row.coefficient_of_notMem (hnew b hb), zero_mul]

/-- A dummy is a subject of a row of dummies that has nothing left over. -/
theorem hosts_dummy (hl : u.Layered) (hf : u.Feasible) (hr : u.tableau.Admits r)
    (hw : r.Within 0) (hx : r.coefficient x ≠ 0) (ht : x.tier = 0) :
    Hosts u r (u.enter x (r.solveFor x)) := by
  refine hosts_enter hl hf hr hx (ht ▸ hw) (by omega) ?_
  intro b _ _
  rw [(hw.solveFor hx).constant rfl, mul_zero]

/-- Whatever subject is chosen, the row can be taken in. -/
theorem hosts_subject (hl : u.Layered) (hf : u.Feasible) (hr : u.tableau.Admits r)
    (hw : r.Within 2) (hpos : 0 ≤ r.constant)
    (hnew : ∀ b ∈ u.tableau.basics, ∀ x ∈ tag.symbols, x ∉ b.2.symbols)
    (h : subject? r tag = some x) : Hosts u r (u.enter x (r.solveFor x)) := by
  rcases subject?_of_some h with ⟨hx, ht⟩ | ⟨hext, hx, ht, hneg⟩
  · exact hosts_external hl hf hr hw hx ht
  · have hw₁ : r.Within 1 := by
      refine ⟨hw.reduced, fun y hy => ?_, by omega⟩
      have := hw.tiers y hy
      have := hext y hy
      omega
    exact hosts_restricted hl hf hr hw₁ hpos ht hneg (fun b hb => hnew b hb x hx)

end Entering

end Solver
end Tether
