import Mathlib.LinearAlgebra.Dimension.Constructions
import Mathlib.LinearAlgebra.Isomorphisms
import Tether.Proofs.Exact.Removal

/-!
# As many rows as constraints

The rows of a tableau and the constraints that it models are two systems of
linear equations with the same solutions.  In both of them every equation has a
symbol of its own: a row has its basic symbol, and a constraint has its marker.
So neither system is redundant, and there are as many rows as constraints.
-/

namespace Tether

open Simplex

section Systems

/-- A linear form of the values of the symbols. -/
abbrev LinearForm : Type :=
  (Symbol → Rat) →ₗ[Rat] Rat

/-- Linear forms, each beside values at which it is one and the others are zero. -/
structure Separated (l : List ((Symbol → Rat) × LinearForm)) : Prop where
  own : ∀ e ∈ l, e.2 e.1 = 1
  others : l.Pairwise (fun d e => d.2 e.1 = 0 ∧ e.2 d.1 = 0)

variable {l l' : List ((Symbol → Rat) × LinearForm)}

/-- The values of the forms of a list. -/
def valuesOf (l : List ((Symbol → Rat) × LinearForm)) :
    (Symbol → Rat) →ₗ[Rat] (Fin l.length → Rat) :=
  LinearMap.pi (fun i => l[i].2)

theorem valuesOf_eq_zero_iff {σ : Symbol → Rat} :
    valuesOf l σ = 0 ↔ ∀ e ∈ l, e.2 σ = 0 := by
  rw [funext_iff, List.forall_mem_iff_getElem]
  exact ⟨fun h i hi => h ⟨i, hi⟩, fun h i => h i.1 i.2⟩

theorem Separated.valuesOf_eq (h : Separated l) (i : Fin l.length) :
    valuesOf l l[i].1 = Pi.single i 1 := by
  funext j
  show l[j].2 l[i].1 = (Pi.single i 1 : Fin l.length → Rat) j
  rcases lt_trichotomy i j with hlt | rfl | hlt
  · rw [Pi.single_eq_of_ne hlt.ne']
    exact (List.pairwise_iff_getElem.mp h.others i j i.2 j.2 hlt).2
  · rw [Pi.single_eq_same]
    exact h.own _ (List.getElem_mem i.2)
  · rw [Pi.single_eq_of_ne hlt.ne]
    exact (List.pairwise_iff_getElem.mp h.others j i j.2 i.2 hlt).1

/-- Separated forms may have any values. -/
theorem Separated.surjective (h : Separated l) : Function.Surjective (valuesOf l) := by
  intro a
  refine ⟨∑ i, a i • l[i].1, ?_⟩
  have hterm : ∀ i, valuesOf l (a i • l[i].1) = Pi.single i (a i) := by
    intro i
    rw [map_smul, h.valuesOf_eq, ← Pi.single_smul', smul_eq_mul, mul_one]
  rw [map_sum, Finset.sum_congr rfl (fun i _ => hterm i), Finset.univ_sum_single]

/-- Separated lists of forms with the same zeros are equally long. -/
theorem Separated.length_eq (h : Separated l) (h' : Separated l')
    (hz : ∀ σ, (∀ e ∈ l, e.2 σ = 0) ↔ ∀ e ∈ l', e.2 σ = 0) : l.length = l'.length := by
  have hker : LinearMap.ker (valuesOf l) = LinearMap.ker (valuesOf l') := by
    ext σ
    rw [LinearMap.mem_ker, LinearMap.mem_ker, valuesOf_eq_zero_iff, valuesOf_eq_zero_iff, hz]
  have hequiv := ((valuesOf l).quotKerEquivOfSurjective h.surjective).symm.trans
    ((Submodule.quotEquivOfEq _ _ hker).trans
      ((valuesOf l').quotKerEquivOfSurjective h'.surjective))
  have hrank := hequiv.finrank_eq
  rwa [Module.finrank_fin_fun, Module.finrank_fin_fun] at hrank

end Systems

namespace Simplex

section Rows

variable {t : Tableau Rat} {r : Row Rat} {σ τ : Symbol → Rat} {x : Symbol}

theorem Row.sumCells_add (σ τ : Symbol → Rat) (l : List (Cell Rat)) :
    sumCells (σ + τ) l = sumCells σ l + sumCells τ l := by
  induction l with
  | nil => exact (add_zero _).symm
  | cons c rest ih =>
      rw [sumCells_cons, sumCells_cons, sumCells_cons, ih, Pi.add_apply]
      ring

theorem Row.sumCells_smul (a : Rat) (σ : Symbol → Rat) (l : List (Cell Rat)) :
    sumCells (a • σ) l = a * sumCells σ l := by
  induction l with
  | nil => exact (mul_zero a).symm
  | cons c rest ih =>
      rw [sumCells_cons, sumCells_cons, ih, Pi.smul_apply, smul_eq_mul]
      ring

/-- What the cells of a row add to its constant. -/
def Row.form (r : Row Rat) : LinearForm where
  toFun := fun σ => sumCells σ r.cells
  map_add' := fun σ τ => sumCells_add σ τ r.cells
  map_smul' := fun a σ => sumCells_smul a σ r.cells

theorem Row.eval_eq_form (r : Row Rat) (σ : Symbol → Rat) :
    r.eval σ = r.constant + r.form σ := by
  rfl

/-- A row does not depend on a symbol that is not in it. -/
theorem Row.form_update (hx : x ∉ r.symbols) : r.form (Function.update 0 x 1) = 0 := by
  have hzero : r.eval (Function.update 0 x 1) = r.eval 0 := r.eval_update_of_notMem hx 0 1
  rw [Row.eval_zero, Row.eval_eq_form] at hzero
  linarith

/-- The equations of the rows without their constants, each beside the values at which
its own symbol is one and all others are zero. -/
def Tableau.system (t : Tableau Rat) : List ((Symbol → Rat) × LinearForm) :=
  t.basics.map (fun b => (Function.update 0 b.1 1, LinearMap.proj b.1 - b.2.form))

/-- The rows have symbols of their own. -/
theorem Tableau.Solved.separated (h : t.Solved) : Separated t.system := by
  have hform : ∀ b ∈ t.basics, ∀ d ∈ t.basics, b.2.form (Function.update 0 d.1 1) = 0 := by
    intro b hb d hd
    refine Row.form_update (fun hx => ?_)
    have hnone := ((h.admits hb).parametric _ hx).2
    rw [(Tableau.mem_basics_iff.mp hd).2] at hnone
    cases hnone
  constructor
  · intro e he
    obtain ⟨b, hb, rfl⟩ := List.mem_map.mp he
    show Function.update (0 : Symbol → Rat) b.1 1 b.1 - b.2.form (Function.update 0 b.1 1) = 1
    rw [Function.update_self, hform b hb b hb, sub_zero]
  · have hother : ∀ b ∈ t.basics, ∀ d ∈ t.basics, b.1 ≠ d.1 →
        (LinearMap.proj b.1 - b.2.form : LinearForm) (Function.update 0 d.1 1) = 0 := by
      intro b hb d hd hne
      show Function.update (0 : Symbol → Rat) d.1 1 b.1 - b.2.form (Function.update 0 d.1 1) = 0
      rw [Function.update_of_ne hne, hform b hb d hd, Pi.zero_apply, sub_zero]
    refine List.pairwise_map.mpr (t.pairwise_basics.imp_of_mem (fun {b d} hb hd hlt => ?_))
    have hne : b.1 ≠ d.1 := fun he => hlt.ne (congrArg Symbol.id he)
    exact ⟨hother b hb d hd hne, hother d hd b hb hne.symm⟩

/-- The forms of the rows are zero where a solution may be moved to. -/
theorem Tableau.solves_add_iff (hτ : t.Solves τ) :
    t.Solves (τ + σ) ↔ ∀ e ∈ t.system, e.2 σ = 0 := by
  rw [system, List.forall_mem_map]
  refine forall₂_congr (fun b hb => ?_)
  have hb := hτ b hb
  show τ b.1 + σ b.1 = b.2.eval (τ + σ) ↔ σ b.1 - b.2.form σ = 0
  rw [Row.eval_eq_form, map_add, hb, Row.eval_eq_form]
  constructor
  · intro he
    linarith
  · intro he
    linarith

end Rows

end Simplex

section Linearity

theorem Expression.sumTerms_add (f g : Variable → Rat) (l : List (Term Rat)) :
    sumTerms (f + g) l = sumTerms f l + sumTerms g l := by
  induction l with
  | nil => exact (add_zero _).symm
  | cons t rest ih =>
      unfold sumTerms
      rw [ih, Pi.add_apply]
      ring

theorem Expression.sumTerms_smul (a : Rat) (f : Variable → Rat) (l : List (Term Rat)) :
    sumTerms (a • f) l = a * sumTerms f l := by
  induction l with
  | nil => exact (mul_zero a).symm
  | cons t rest ih =>
      unfold sumTerms
      rw [ih, Pi.smul_apply, smul_eq_mul]
      ring

theorem Tag.elim_zero (tag : Tag) : tag.other.elim 0 (0 : Symbol → Rat) = 0 := by
  cases tag.other with
  | none => rfl
  | some o => rfl

theorem Tag.elim_add (tag : Tag) (σ τ : Symbol → Rat) :
    tag.other.elim 0 (σ + τ) = tag.other.elim 0 σ + tag.other.elim 0 τ := by
  cases tag.other with
  | none => exact (add_zero _).symm
  | some o => rfl

theorem Tag.elim_smul (tag : Tag) (a : Rat) (σ : Symbol → Rat) :
    tag.other.elim 0 (a • σ) = a * tag.other.elim 0 σ := by
  cases tag.other with
  | none => exact (mul_zero a).symm
  | some o => rfl

theorem Solver.read_add (s : Solver Rat) (σ τ : Symbol → Rat) :
    s.read (σ + τ) = s.read σ + s.read τ := by
  funext v
  rw [Pi.add_apply]
  unfold read
  cases s.unknowns.get? v with
  | none => exact (add_zero _).symm
  | some entry => rfl

theorem Solver.read_smul (s : Solver Rat) (a : Rat) (σ : Symbol → Rat) :
    s.read (a • σ) = a • s.read σ := by
  funext v
  rw [Pi.smul_apply]
  unfold read
  cases s.unknowns.get? v with
  | none => exact (mul_zero a).symm
  | some entry => rfl

end Linearity

namespace Solver

variable {s : Solver Rat} {l : List (Constraint Rat × Tag)} {σ τ : Symbol → Rat}
  {e : Constraint Rat × Tag} {demand : Variable → Nat}

section Constraints

/-- The equation of a constraint without its constant. -/
def form (s : Solver Rat) (e : Constraint Rat × Tag) : LinearForm where
  toFun := fun σ => Expression.sumTerms (s.read σ) e.1.expression.terms +
    e.1.sense * (σ e.2.marker - e.2.other.elim 0 σ)
  map_add' := fun σ τ => by
    rw [read_add, Expression.sumTerms_add, Tag.elim_add, Pi.add_apply]
    ring
  map_smul' := fun a σ => by
    rw [read_smul, Expression.sumTerms_smul, Tag.elim_smul, Pi.smul_apply, smul_eq_mul,
      smul_eq_mul, RingHom.id_apply]
    ring

theorem form_apply (s : Solver Rat) (e : Constraint Rat × Tag) (σ : Symbol → Rat) :
    e.1.expression.constant + s.form e σ = e.1.expression.eval (s.read σ) +
      e.1.sense * (σ e.2.marker - e.2.other.elim 0 σ) := by
  have hform : s.form e σ = Expression.sumTerms (s.read σ) e.1.expression.terms +
      e.1.sense * (σ e.2.marker - e.2.other.elim 0 σ) := rfl
  rw [hform, Expression.eval]
  ring

/-- Where the variables are zero, the equation of a constraint is about its own symbols. -/
theorem form_of_read (h : s.read σ = s.read 0) :
    s.form e σ = e.1.sense * (σ e.2.marker - e.2.other.elim 0 σ) := by
  have hat := s.form_apply e σ
  have hzero := s.form_apply e 0
  rw [map_zero, e.2.elim_zero, Pi.zero_apply, sub_zero, mul_zero, add_zero, add_zero] at hzero
  rw [h, ← hzero] at hat
  exact add_left_cancel hat

/-- The equations of the constraints, each beside the values at which its own marker
makes up for one and all other symbols are zero. -/
def system (s : Solver Rat) (l : List (Constraint Rat × Tag)) :
    List ((Symbol → Rat) × LinearForm) :=
  l.map (fun e => (Function.update 0 e.2.marker e.1.sense, s.form e))

/-- The constraints have markers of their own. -/
theorem separated_system (hw : Wired s.tableau l) (hc : Counted s.tableau s.unknowns demand) :
    Separated (s.system l) := by
  obtain ⟨hnodup, hdisjoint⟩ := List.nodup_flatMap.mp hw.disjoint
  have hread : ∀ e ∈ l, ∀ a, s.read (Function.update 0 e.2.marker a) = s.read 0 := by
    intro e he a
    exact read_update hc ((hw.fits e he).tier_le (by simp [Tag.symbols])) a
  constructor
  · intro d hd
    obtain ⟨e, he, rfl⟩ := List.mem_map.mp hd
    have hother : e.2.other.elim 0 (Function.update (0 : Symbol → Rat) e.2.marker e.1.sense) =
        0 := by
      cases ho : e.2.other with
      | none => rfl
      | some o =>
          refine Function.update_of_ne ?_ _ _
          rintro rfl
          have := hnodup e he
          simp [Tag.symbols, ho] at this
    dsimp only
    rw [form_of_read (hread e he _), hother, Function.update_self, sub_zero]
    exact e.1.sense_mul_self
  · have hzero : ∀ d ∈ l, ∀ e ∈ l, e.2.marker ∉ d.2.symbols →
        s.form d (Function.update 0 e.2.marker e.1.sense) = 0 := by
      intro d _ e he hn
      have hagree : ∀ y ∈ d.2.symbols,
          Function.update (0 : Symbol → Rat) e.2.marker e.1.sense y = (0 : Symbol → Rat) y :=
        fun y hy => Function.update_of_ne (ne_of_mem_of_not_mem hy hn) _ _
      obtain ⟨hm, ho⟩ := Tag.elim_congr hagree
      rw [form_of_read (hread e he _), hm, ho, d.2.elim_zero, Pi.zero_apply, sub_zero, mul_zero]
    refine List.pairwise_map.mpr (hdisjoint.imp_of_mem (fun {d e} hd he hdis => ?_))
    exact ⟨hzero d hd e he (fun hm => hdis hm (by simp [Tag.symbols])),
      hzero e he d hd (fun hm => hdis (by simp [Tag.symbols]) hm)⟩

/-- The forms of the constraints are zero where symbols that balance them may be moved
to. -/
theorem balances_add_iff (hτ : ∀ e ∈ l, e.2.Balances e.1 (s.read τ) τ) :
    (∀ e ∈ l, e.2.Balances e.1 (s.read (τ + σ)) (τ + σ)) ↔ ∀ e ∈ s.system l, e.2 σ = 0 := by
  rw [system, List.forall_mem_map]
  refine forall₂_congr (fun e he => ?_)
  have hb := hτ e he
  unfold Tag.Balances at hb ⊢
  rw [← form_apply] at hb ⊢
  rw [map_add, ← add_assoc, hb, zero_add]

/-- There are as many rows as constraints. -/
theorem Standing.length_basics (h : s.Standing l) (hw : Wired s.tableau l)
    (hc : Counted s.tableau s.unknowns demand) : s.tableau.basics.length = l.length := by
  have hsolves := h.layered.proper.rows.solves_fill 0
  have hbalances := (h.models.solves _).mp hsolves
  have hlength := h.layered.proper.rows.separated.length_eq (separated_system hw hc)
    (fun σ => ?_)
  · rwa [Tableau.system, system, List.length_map, List.length_map] at hlength
  · rw [← Tableau.solves_add_iff hsolves, h.models.solves, balances_add_iff hbalances]

end Constraints

end Solver

end Tether
