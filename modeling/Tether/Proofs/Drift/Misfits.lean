import Mathlib.Algebra.Order.BigOperators.Group.List
import Tether.Proofs.Drift.Loops

/-!
# What required equalities come to

A required equality is meant to be zero.  Its misfit at values of the symbols is what its
expression comes to, with the value of its marker: the marker is zero unless it is basic,
and then the equality was redundant when it was added.

If the values solve the rows, then the misfit of every installed equality is small compared
to them: it grows with the eliminations, and with the number of symbols in each, no faster
than interest on the tolerance.
-/

namespace Tether

open Simplex

section Sizes

/-- A required equality no coefficient of which is near zero. -/
structure Constraint.Binding (c : Constraint Coarse) : Prop where
  required : c.strength.isRequired = true
  equality : c.relation = .equalTo
  kept : ∀ t ∈ c.expression.terms, Scalar.nearZero t.coefficient = false

namespace Expression

variable {e : Expression Coarse}

/-- What the coefficients of an expression come to without their signs. -/
def weight (e : Expression Coarse) : Rat :=
  (e.terms.map (fun t => |t.coefficient.value|)).sum

/-- How much an expression and its marker may be out: by the number of its terms while its
row is made, and by its weight from then on. -/
def size (e : Expression Coarse) : Rat :=
  e.terms.length + e.weight + 2

theorem weight_nonneg (e : Expression Coarse) : 0 ≤ e.weight := by
  refine List.sum_nonneg (fun a ha => ?_)
  obtain ⟨t, -, rfl⟩ := List.mem_map.mp ha
  exact abs_nonneg _

theorem weight_add_one_le_size (e : Expression Coarse) : e.weight + 1 ≤ e.size := by
  have hterms : (0 : Rat) ≤ e.terms.length := Nat.cast_nonneg _
  unfold size
  linarith

theorem size_nonneg (e : Expression Coarse) : 0 ≤ e.size := by
  have := e.weight_nonneg
  have := e.weight_add_one_le_size
  linarith

theorem abs_sumTerms_sub_le {f g : Variable → Rat} {d : Rat} {terms : List (Term Coarse)}
    (h : ∀ t ∈ terms, |f t.unknown - g t.unknown| ≤ d) :
    |sumTerms f (terms.map (fun t => ⟨t.unknown, t.coefficient.value, t.isConstant⟩)) -
      sumTerms g (terms.map (fun t => ⟨t.unknown, t.coefficient.value, t.isConstant⟩))| ≤
        (terms.map (fun t => |t.coefficient.value|)).sum * d := by
  induction terms with
  | nil => simp [sumTerms]
  | cons t rest ih =>
      have hrest := ih (fun u hu => h u (List.mem_cons_of_mem t hu))
      have hone : |t.coefficient.value * (f t.unknown - g t.unknown)| ≤
          |t.coefficient.value| * d := by
        rw [abs_mul]
        exact mul_le_mul_of_nonneg_left (h t List.mem_cons_self) (abs_nonneg _)
      simp only [List.map_cons, sumTerms, List.sum_cons, add_mul]
      refine le_trans (le_of_eq (congrArg _ ?_)) ((abs_add_le _ _).trans (add_le_add hone hrest))
      ring

/-- Moving the variables by a distance moves an expression by its weight times that. -/
theorem abs_eval_sub_le {f g : Variable → Rat} {d : Rat}
    (h : ∀ t ∈ e.terms, |f t.unknown - g t.unknown| ≤ d) :
    |e.exact.eval f - e.exact.eval g| ≤ e.weight * d := by
  have heval : ∀ f : Variable → Rat, e.exact.eval f =
      sumTerms f (e.terms.map (fun t => ⟨t.unknown, t.coefficient.value, t.isConstant⟩)) +
        e.constant.value := fun _ => rfl
  rw [heval, heval, add_sub_add_right_eq_sub]
  exact abs_sumTerms_sub_le h

end Expression

end Sizes

namespace Solver

variable {s w : Solver Coarse} {σ τ : Symbol → Rat} {v : Variable} {j k : Nat} {d : Rat}
  {F G : Reach} {X : Set Symbol} {l : List (Constraint Coarse × Tag)} {e : Constraint Coarse × Tag}

section Readings

/-- The symbol of a variable, if it is known. -/
def symbol? (s : Solver Coarse) (v : Variable) : Option Symbol :=
  (s.unknowns.get? v).map (·.symbol)

/-- The value that symbols give to a variable, zero if it is not known. -/
def reading (s : Solver Coarse) (σ : Symbol → Rat) (v : Variable) : Rat :=
  ((s.symbol? v).map σ).getD 0

theorem reading_congr (h : w.symbol? v = s.symbol? v) : w.reading σ v = s.reading σ v := by
  rw [reading, reading, h]

theorem abs_reading_sub_le (hd : 0 ≤ d) (hclose : ∀ x, x ∉ X → |τ x - σ x| ≤ d)
    (hX : ∀ x ∈ s.symbol? v, x ∉ X) : |s.reading τ v - s.reading σ v| ≤ d := by
  unfold reading
  cases hx : s.symbol? v with
  | none => simpa using hd
  | some x => exact hclose x (hX x hx)

/-- What a required equality comes to at values of the symbols, with its marker. -/
def misfit (s : Solver Coarse) (σ : Symbol → Rat) (e : Constraint Coarse × Tag) : Rat :=
  e.1.expression.exact.eval (s.reading σ) + σ e.2.marker

theorem abs_misfit_sub_le (hd : 0 ≤ d) (hclose : ∀ x, x ∉ X → |τ x - σ x| ≤ d)
    (hm : e.2.marker ∉ X) (hX : ∀ t ∈ e.1.expression.terms, ∀ x ∈ s.symbol? t.unknown, x ∉ X) :
    |s.misfit τ e - s.misfit σ e| ≤ (e.1.expression.weight + 1) * d := by
  have heval := Expression.abs_eval_sub_le (e := e.1.expression)
    (fun t ht => abs_reading_sub_le hd hclose (hX t ht))
  have hsum : s.misfit τ e - s.misfit σ e =
      (e.1.expression.exact.eval (s.reading τ) - e.1.expression.exact.eval (s.reading σ)) +
        (τ e.2.marker - σ e.2.marker) := by
    unfold misfit
    ring
  rw [hsum, add_one_mul]
  exact (abs_add_le _ _).trans (add_le_add heval (hclose _ hm))

theorem misfit_congr (h : ∀ t ∈ e.1.expression.terms, w.symbol? t.unknown = s.symbol? t.unknown) :
    w.misfit σ e = s.misfit σ e := by
  have heval := Expression.abs_eval_sub_le (e := e.1.expression) (d := 0)
    (f := w.reading σ) (g := s.reading σ)
    (fun t ht => by rw [reading_congr (h t ht), sub_self, abs_zero])
  rw [mul_zero, abs_nonpos_iff, sub_eq_zero] at heval
  rw [misfit, misfit, heval]

end Readings

section Drifting

/-- At bounded values that solve the rows every required equality of a list has a bounded
misfit: after so many eliminations with losses, and with values that may have been as large
as the reach allows. -/
structure Drifts (k : Nat) (F : Reach) (s : Solver Coarse) (l : List (Constraint Coarse × Tag)) :
    Prop where
  bound : ∀ n, s.tableau.symbolCount ≤ n → ∀ σ M, 1 ≤ M → s.tableau.Meets σ → Row.Bounded M σ →
    ∀ e ∈ l, e.1.Binding →
      |s.misfit σ e| ≤ e.1.expression.size * ((growth n ^ k - 1) * F.bound M)

theorem Drifts.mono (h : Drifts k F s l) (hk : k ≤ j) (hF : F ≤ G)
    {l' : List (Constraint Coarse × Tag)} (hl : ∀ e ∈ l', e ∈ l) : Drifts j G s l' := by
  refine ⟨fun n hn σ M hM hσ hb e he hbind => ?_⟩
  exact (h.bound n hn σ M hM hσ hb e (hl e he) hbind).trans (mul_le_mul_of_nonneg_left
    (losses_mono n (zero_le_one.trans hM) hk hF) e.1.expression.size_nonneg)

/-- An equality drifts as far as the solver that it was in, and by what has been lost
since. -/
theorem Drifts.retrace (h : Drifts k F s l) (hr : Retraces j G X s w)
    (hm : ∀ e ∈ l, e.1.Binding → e.2.marker ∉ X)
    (hread : ∀ e ∈ l, e.1.Binding → ∀ t ∈ e.1.expression.terms,
      w.symbol? t.unknown = s.symbol? t.unknown ∧ ∀ x ∈ s.symbol? t.unknown, x ∉ X) :
    Drifts (k + j) (F.comp G) w l := by
  refine ⟨fun n hn σ M hM hσ hb e he hbind => ?_⟩
  have hj := one_le_growth_pow n j
  have hG := G.one_le_bound hM
  obtain ⟨τ, hτ, hbτ, hclose⟩ := hr.back n hn σ M hM hσ hb
  have hbefore := h.bound n (hr.count.trans hn) τ _ (one_le_mul_of_one_le_of_one_le hj hG) hτ hbτ
    e he hbind
  have hd : 0 ≤ (growth n ^ j - 1) * G.bound M :=
    mul_nonneg (growth_pow_sub_one_nonneg n j) (zero_le_one.trans hG)
  have hsince := (abs_misfit_sub_le hd hclose (hm e he hbind)
    (fun t ht => (hread e he hbind t ht).2)).trans
      (mul_le_mul_of_nonneg_right e.1.expression.weight_add_one_le_size hd)
  rw [misfit_congr (fun t ht => (hread e he hbind t ht).1)]
  have hsum : s.misfit σ e = s.misfit τ e - (s.misfit τ e - s.misfit σ e) := by ring
  rw [hsum]
  refine ((abs_sub _ _).trans (add_le_add hbefore hsince)).trans ?_
  rw [← mul_add]
  exact mul_le_mul_of_nonneg_left (losses_comp_le F G hM n k j) e.1.expression.size_nonneg

end Drifting

end Solver
end Tether
