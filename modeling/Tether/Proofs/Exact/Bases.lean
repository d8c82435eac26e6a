import Mathlib.Data.Prod.Lex
import Tether.Proofs.Exact.Dual
import Tether.Proofs.Tableau.Counting

/-!
# What a basis determines

Solvers with the same symbols and the same solutions have the same rows and the
same objectives as soon as the same symbols are basic.  So they make the same
choices, and where a loop has come to is told by its basis.

A pivot exchanges two symbols of the basis.
-/

namespace Tether

open Simplex

namespace Simplex

variable {t : Tableau Rat} {r q : Row Rat}

section Rows

/-- Where only known symbols occur, the cells of a row ascend strictly. -/
theorem Tableau.Admits.ascending (h : t.Admits r) :
    r.cells.Pairwise (fun a b => a.1.id < b.1.id) := by
  have hk : ∀ c ∈ r.cells, t.Knows c.1 :=
    fun c hc => (h.parametric c.1 (Row.mem_symbols_iff.mpr ⟨c.2, hc⟩)).1
  refine h.ordered.imp_of_mem (fun ha hb hab => lt_of_le_of_ne hab.1 (fun hid => ?_))
  exact hab.2 ((hk _ ha).eq_of_id_eq (hk _ hb) hid)

theorem Row.Reduced.mem_cells_iff (h : r.Reduced) (hr : r.Ordered) {c : Cell Rat} :
    c ∈ r.cells ↔ c.2 ≠ 0 ∧ r.coefficient c.1 = c.2 := by
  constructor
  · exact fun hc => ⟨h c hc, hr.coefficient_of_mem hc⟩
  · rintro ⟨hne, hc⟩
    obtain ⟨a, ha⟩ := Row.mem_symbols_iff.mp
      (Row.mem_symbols_of_coefficient (r := r) (x := c.1) (by rw [hc]; exact hne))
    have hac : a = c.2 := (hr.coefficient_of_mem ha).symm.trans hc
    rwa [hac] at ha

/-- Rows that agree on the solutions are the same. -/
theorem Tableau.Admits.eq_of_solves (hr : t.Admits r) (hq : t.Admits q) (ht : t.Solved)
    (hr' : r.Reduced) (hq' : q.Reduced) (h : ∀ σ, t.Solves σ → r.eval σ = q.eval σ) :
    r = q := by
  have heval : ∀ τ, r.eval τ = q.eval τ := by
    intro τ
    rw [← hr.eval_fill, ← hq.eval_fill]
    exact h _ (ht.solves_fill τ)
  have hconstant : r.constant = q.constant := by
    rw [← Row.eval_zero r, ← Row.eval_zero q, heval]
  have hcoefficient : ∀ x, r.coefficient x = q.coefficient x := by
    intro x
    rw [hr.ordered.coefficient_eq, hq.ordered.coefficient_eq, heval, hconstant]
  have hcells : r.cells = q.cells := by
    refine Tableau.eq_of_ascending (f := fun c => c.1.id) hr.ascending hq.ascending (fun c => ?_)
    rw [hr'.mem_cells_iff hr.ordered, hq'.mem_cells_iff hq.ordered, hcoefficient]
  calc r = ⟨r.constant, r.cells⟩ := rfl
    _ = ⟨q.constant, q.cells⟩ := by rw [hconstant, hcells]

theorem Tableau.row?_eq_none_iff {x : Symbol} : t.row? x = none ↔ x.id ∉ t.basicNumbers := by
  rw [Tableau.mem_basicNumbers, Tableau.row?, Option.not_isSome_iff_eq_none]

end Rows

end Simplex

namespace Solver

variable {s t u : Solver Rat} {r : Row Rat} {x leaving entering : Symbol}

section Matching

theorem Equivalent.symm (h : s.Equivalent u) : u.Equivalent s where
  knows := fun x => (h.knows x).symm
  solves := fun σ => (h.solves σ).symm
  objective := fun σ hσ => (h.objective σ ((h.solves σ).mp hσ)).symm
  artificial := fun σ hσ => (h.artificial σ ((h.solves σ).mp hσ)).symm

/-- Two equivalent solvers with the same basis. -/
structure Matching (t u : Solver Rat) : Prop where
  left : t.Layered
  right : u.Layered
  equivalent : t.Equivalent u
  basis : u.tableau.basicNumbers = t.tableau.basicNumbers

theorem Matching.symm (h : Matching t u) : Matching u t :=
  ⟨h.right, h.left, h.equivalent.symm, h.basis.symm⟩

theorem Matching.parametric_iff (h : Matching t u) :
    u.tableau.Parametric x ↔ t.tableau.Parametric x := by
  rw [Tableau.Parametric, Tableau.Parametric, h.equivalent.knows, Tableau.row?_eq_none_iff,
    Tableau.row?_eq_none_iff, h.basis]

theorem Matching.admits (h : Matching t u) (hr : u.tableau.Admits r) : t.tableau.Admits r :=
  hr.of_parametric (fun _ _ hp => h.parametric_iff.mp hp)

theorem Matching.mem_basics (h : Matching t u) {b : Symbol × Row Rat}
    (hb : b ∈ u.tableau.basics) : b ∈ t.tableau.basics := by
  obtain ⟨hk, hrow⟩ := Tableau.mem_basics_iff.mp hb
  have hk := (h.equivalent.knows b.1).mp hk
  obtain ⟨r, hr⟩ : ∃ r, t.tableau.row? b.1 = some r := by
    refine Option.ne_none_iff_exists'.mp (fun hn => ?_)
    rw [Tableau.row?_eq_none_iff, ← h.basis, ← Tableau.row?_eq_none_iff, hrow] at hn
    cases hn
  have hbt : (b.1, r) ∈ t.tableau.basics := Tableau.mem_basics_iff.mpr ⟨hk, hr⟩
  have hsame : r = b.2 := by
    refine (h.left.proper.rows.admits hbt).eq_of_solves
      (h.admits (h.right.proper.rows.admits hb)) h.left.proper.rows (h.left.rows _ hbt).reduced
      (h.right.rows _ hb).reduced (fun σ hσ => ?_)
    exact (hσ _ hbt).symm.trans ((h.equivalent.solves σ).mpr hσ _ hb)
  rwa [hsame] at hbt

/-- The basis determines the rows. -/
theorem Matching.basics_eq (h : Matching t u) : u.tableau.basics = t.tableau.basics :=
  Tableau.eq_of_ascending u.tableau.pairwise_basics t.tableau.pairwise_basics
    (fun _ => ⟨h.mem_basics, h.symm.mem_basics⟩)

theorem Matching.row?_eq (h : Matching t u) (hr : t.tableau.row? x = some r)
    (hk : t.tableau.Knows x) : u.tableau.row? x = some r := by
  have hb := Tableau.mem_basics_iff.mpr ⟨hk, hr⟩
  rw [← h.basics_eq] at hb
  exact (Tableau.mem_basics_iff.mp hb).2

/-- The basis determines the objective. -/
theorem Matching.objective_eq (h : Matching t u) : u.objective = t.objective :=
  (h.admits h.right.proper.objective).eq_of_solves h.left.proper.objective h.left.proper.rows
    h.right.objective.reduced h.left.objective.reduced h.equivalent.objective

theorem Matching.artificial_eq (h : Matching t u) : u.artificial = t.artificial := by
  have heval := h.equivalent.artificial
  have hsol := h.left.proper.rows.solves_fill 0
  cases hu : u.artificial with
  | none =>
      have hnone := heval _ hsol
      rw [hu, Option.map_none] at hnone
      exact (Option.map_eq_none_iff.mp hnone.symm).symm
  | some q =>
      obtain ⟨r, hr, -⟩ : ∃ r, t.artificial = some r ∧ _ := by
        have hsome := heval _ hsol
        rw [hu, Option.map_some] at hsome
        exact Option.map_eq_some_iff.mp hsome.symm
      rw [hr]
      refine congrArg some ((h.admits (h.right.proper.artificial q hu)).eq_of_solves
        (h.left.proper.artificial r hr) h.left.proper.rows (h.right.artificial q hu).reduced
        (h.left.artificial r hr).reduced (fun σ hσ => ?_))
      have hσ := heval σ hσ
      rw [hu, hr] at hσ
      exact Option.some.inj hσ

theorem Matching.goalRow?_eq (h : Matching t u) (goal : Goal) :
    u.goalRow? goal = t.goalRow? goal := by
  cases goal with
  | primary => exact congrArg some h.objective_eq
  | artificial => exact h.artificial_eq

theorem Matching.leaving?_eq (h : Matching t u) (entering : Symbol) :
    leaving? u.tableau entering = leaving? t.tableau entering := by
  unfold leaving?
  rw [h.basics_eq]

theorem Matching.dualEntering?_eq (h : Matching t u) (r : Row Rat) :
    u.dualEntering? r = t.dualEntering? r := by
  unfold dualEntering?
  rw [h.objective_eq]

end Matching

section Lowest

/-- The fold chooses a place where the key is lowest. -/
theorem foldl_choose_le {β κ : Type} [LinearOrder κ] {before : β → β → Bool} {key : β → κ}
    (hb : ∀ a b, before a b = true ↔ key a < key b) (l : List β) (x : β) :
    ∀ y ∈ x :: l, key (l.foldl (fun best y => if before y best then y else best) x) ≤ key y := by
  induction l generalizing x with
  | nil =>
      intro y hy
      rw [List.mem_singleton.mp hy]
      exact le_refl _
  | cons z rest ih =>
      rw [List.foldl_cons]
      by_cases hz : before z x = true
      · rw [if_pos hz]
        have hle := ih z
        have hlt := (hb z x).mp hz
        refine List.forall_mem_cons.mpr ⟨?_, hle⟩
        exact le_of_lt (lt_of_le_of_lt (hle z (by simp)) hlt)
      · rw [if_neg hz]
        have hle := List.forall_mem_cons.mp (ih x)
        have hge := not_lt.mp (mt (hb z x).mpr hz)
        exact List.forall_mem_cons.mpr
          ⟨hle.1, List.forall_mem_cons.mpr ⟨le_trans hle.1 hge, hle.2⟩⟩

/-- What the leaving symbols are ordered by: the value first, then the number. -/
def leavingKey (s : Solver Rat) (x : Symbol) : Rat ×ₗ Nat :=
  toLex (s.symbolValue x, x.id)

theorem leavesBefore_iff {y : Symbol} :
    s.leavesBefore x y = true ↔ s.leavingKey x < s.leavingKey y := by
  have hrank : ∀ a b : Rat, Scalar.rank a b = rankRat a b := fun _ _ => rfl
  rw [leavesBefore, leavingKey, leavingKey, Prod.Lex.toLex_lt_toLex, hrank, rankRat]
  dsimp only
  split
  · rename_i hlt
    simp [hlt]
  · rename_i hlt
    split
    · rename_i heq
      simp [heq, Nat.compare_eq_lt]
    · rename_i hne
      simp [hlt, hne]

/-- The symbol that leaves has the lowest key of those that may. -/
theorem mostInfeasible?_le (h : s.mostInfeasible? = some x) :
    ∀ y ∈ s.stillInfeasible, s.leavingKey x ≤ s.leavingKey y := by
  unfold mostInfeasible? at h
  split at h
  · cases h
  · rename_i z rest hs
    rw [hs]
    cases h
    have hbefore : ∀ a b, s.leavesBefore a b = true ↔ s.leavingKey a < s.leavingKey b :=
      fun _ _ => leavesBefore_iff
    exact foldl_choose_le hbefore rest z

theorem exists_mostInfeasible? (hx : x ∈ s.stillInfeasible) :
    ∃ y, s.mostInfeasible? = some y := by
  unfold mostInfeasible?
  split
  · rename_i hs
    rw [hs] at hx
    cases hx
  · exact ⟨_, rfl⟩

theorem Restoring.mem_stillInfeasible_iff (h : Restoring s u) :
    x ∈ u.stillInfeasible ↔
      ∃ r, (x, r) ∈ u.tableau.basics ∧ x.tier = 1 ∧ r.constant < 0 := by
  rw [Solver.mem_stillInfeasible_iff]
  constructor
  · rintro ⟨hx, r, hr, hlow⟩
    exact ⟨r, Tableau.mem_basics_iff.mpr ⟨h.layered.proper.infeasible x hx, hr⟩,
      h.recorded x hx, hlow⟩
  · rintro ⟨r, hb, ht, hlow⟩
    exact ⟨h.covered _ hb ht hlow, r, (Tableau.mem_basics_iff.mp hb).2, hlow⟩

/-- The basis determines which symbol leaves. -/
theorem Matching.mostInfeasible?_eq (h : Matching t u) (ht : Restoring s t) (hu : Restoring s u)
    (hx : t.mostInfeasible? = some x) : u.mostInfeasible? = some x := by
  have hmem : ∀ y, y ∈ u.stillInfeasible ↔ y ∈ t.stillInfeasible := by
    intro y
    rw [ht.mem_stillInfeasible_iff, hu.mem_stillInfeasible_iff, h.basics_eq]
  have hxt := mem_stillInfeasible_of_mostInfeasible? hx
  obtain ⟨y, hy⟩ := exists_mostInfeasible? ((hmem x).mpr hxt)
  have hyt := (hmem y).mp (mem_stillInfeasible_of_mostInfeasible? hy)
  have hvalue : ∀ z ∈ t.stillInfeasible, u.leavingKey z = t.leavingKey z := by
    intro z hz
    obtain ⟨r, hb, -, -⟩ := ht.mem_stillInfeasible_iff.mp hz
    obtain ⟨hk, hr⟩ := Tableau.mem_basics_iff.mp hb
    rw [leavingKey, leavingKey, symbolValue, symbolValue, hr, h.row?_eq hr hk]
  have hle := mostInfeasible?_le hx y hyt
  have hge := mostInfeasible?_le hy x ((hmem x).mpr hxt)
  rw [hvalue x hxt, hvalue y hyt] at hge
  -- equal keys have equal numbers
  have hid : y.id = x.id :=
    congrArg Prod.snd (congrArg ofLex (le_antisymm hge hle))
  have hkx := ht.layered.proper.infeasible x (Solver.mem_stillInfeasible_iff.mp hxt).1
  have hky := ht.layered.proper.infeasible y (Solver.mem_stillInfeasible_iff.mp hyt).1
  rw [hy, hky.eq_of_id_eq hkx hid]

end Lowest

section Exchange

theorem basicNumbers_enter (hx : s.tableau.Knows x) (q : Row Rat) :
    (s.enter x q).tableau.basicNumbers = insert x.id s.tableau.basicNumbers := by
  ext id
  rw [Finset.mem_insert, Tableau.mem_basicNumbers, Tableau.mem_basicNumbers, rowAt?_enter hx]
  by_cases hid : x.id = id
  · simp [hid]
  · simp [hid, Ne.symm hid]

/-- A pivot exchanges two symbols of the basis. -/
theorem basicNumbers_pivot (hk : s.tableau.Knows entering) :
    ((s.dropRow leaving).pivot leaving entering r).tableau.basicNumbers =
      insert entering.id (s.tableau.basicNumbers.erase leaving.id) := by
  unfold Solver.pivot
  rw [basicNumbers_enter (knows_dropRow.mpr hk)]
  exact congrArg (insert entering.id) (Tableau.basicNumbers_erase s.tableau leaving)

end Exchange

end Solver
end Tether
