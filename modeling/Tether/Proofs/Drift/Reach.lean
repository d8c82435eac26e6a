import Mathlib.Algebra.Order.BigOperators.Group.List
import Tether.Proofs.Drift.Rows

/-!
# How far values reach back

An operation may give a symbol up, or move the value of one.  Then the values of before may
be larger than those of after.  A reach says how large they may have been, given how large
they are: moving a value adds the distance, and a row that is given up brings in what it may
come to.

Reaches compose, from the last operation back to the first.
-/

namespace Tether

open Simplex

namespace Simplex
namespace Row

variable {σ : Symbol → Rat} {M : Rat}

/-- What the coefficients of a row come to without their signs. -/
def weight (r : Row Coarse) : Rat :=
  (r.cells.map (fun c => |c.2.value|)).sum

theorem weight_nonneg (r : Row Coarse) : 0 ≤ r.weight := by
  refine List.sum_nonneg (fun a ha => ?_)
  obtain ⟨c, -, rfl⟩ := List.mem_map.mp ha
  exact abs_nonneg _

theorem abs_sumCells_le (hσ : Bounded M σ) (l : List (Cell Coarse)) :
    |sumCells σ (l.map (fun c => (c.1, c.2.value)))| ≤
      (l.map (fun c => |c.2.value|)).sum * M := by
  induction l with
  | nil => exact le_of_eq (by rw [List.map_nil, List.map_nil, List.sum_nil, zero_mul]; rfl)
  | cons c rest ih =>
      rw [List.map_cons, sumCells_cons, List.map_cons, List.sum_cons, add_mul]
      refine (abs_add_le _ _).trans (add_le_add ?_ ih)
      rw [abs_mul]
      exact mul_le_mul_of_nonneg_left (hσ c.1) (abs_nonneg _)

/-- A row comes to no more than its constant and its weight times the largest value. -/
theorem abs_eval_le (hσ : Bounded M σ) (r : Row Coarse) :
    |r.exact.eval σ| ≤ |r.constant.value| + r.weight * M :=
  (abs_add_le _ _).trans (add_le_add (le_refl _) (abs_sumCells_le hσ r.cells))

end Row
end Simplex

/-- How large values may have been, given how large they are. -/
structure Reach where
  /-- The bound of before, by the bound of after. -/
  bound : Rat → Rat
  /-- Values are not known to have been smaller. -/
  enlarges : ∀ M, 0 ≤ M → M ≤ bound M
  /-- Larger values may have been larger. -/
  monotone : ∀ M N, 0 ≤ M → M ≤ N → bound M ≤ bound N
  /-- Values that are several times as large have been several times as large at most. -/
  proportional : ∀ a M, 1 ≤ a → 0 ≤ M → bound (a * M) ≤ a * bound M

namespace Reach

variable {M : Rat}

theorem one_le_bound (F : Reach) (hM : 1 ≤ M) : 1 ≤ F.bound M :=
  hM.trans (F.enlarges M (zero_le_one.trans hM))

theorem bound_nonneg (F : Reach) (hM : 0 ≤ M) : 0 ≤ F.bound M :=
  hM.trans (F.enlarges M hM)

section Kinds

/-- Nothing is given up and nothing is moved. -/
def id : Reach where
  bound M := M
  enlarges _ _ := le_refl _
  monotone _ _ _ h := h
  proportional _ _ _ _ := le_refl _

/-- The reach of one operation and then another one. -/
def comp (F G : Reach) : Reach where
  bound M := F.bound (G.bound M)
  enlarges M hM := (G.enlarges M hM).trans (F.enlarges _ (G.bound_nonneg hM))
  monotone M N hM h := F.monotone _ _ (G.bound_nonneg hM) (G.monotone M N hM h)
  proportional a M ha hM :=
    (F.monotone _ _ (G.bound_nonneg (mul_nonneg (zero_le_one.trans ha) hM))
      (G.proportional a M ha hM)).trans (F.proportional a _ ha (G.bound_nonneg hM))

/-- A value is moved by a distance. -/
def ofMove (d : Rat) : Reach where
  bound M := M + |d|
  enlarges _ _ := le_add_of_nonneg_right (abs_nonneg d)
  monotone _ _ _ h := by gcongr
  proportional a M ha _ := by
    rw [mul_add]
    gcongr
    exact le_mul_of_one_le_left (abs_nonneg d) ha

/-- A symbol is given up that had the value of a row. -/
def ofRow (r : Row Coarse) : Reach where
  bound M := max M (|r.constant.value| + r.weight * M)
  enlarges _ _ := le_max_left _ _
  monotone _ _ _ h := by
    have := r.weight_nonneg
    gcongr
  proportional a M ha hM := by
    have ha₀ : 0 ≤ a := zero_le_one.trans ha
    rw [mul_max_of_nonneg _ _ ha₀, mul_add, mul_left_comm r.weight a M]
    gcongr
    exact le_mul_of_one_le_left (abs_nonneg _) ha

@[simp] theorem ofMove_neg (d : Rat) : ofMove (-d) = ofMove d := by
  simp only [ofMove, abs_neg]

@[simp] theorem bound_id (M : Rat) : id.bound M = M :=
  rfl

@[simp] theorem bound_comp (F G : Reach) (M : Rat) : (F.comp G).bound M = F.bound (G.bound M) :=
  rfl

@[simp] theorem comp_id (F : Reach) : F.comp id = F :=
  rfl

@[simp] theorem id_comp (F : Reach) : id.comp F = F :=
  rfl

theorem comp_assoc (F G H : Reach) : (F.comp G).comp H = F.comp (G.comp H) :=
  rfl

end Kinds

section Order

/-- One reach is no larger than another one. -/
instance : Preorder Reach where
  le F G := ∀ M, 0 ≤ M → F.bound M ≤ G.bound M
  le_refl _ _ _ := le_refl _
  le_trans _ _ _ h h' M hM := (h M hM).trans (h' M hM)

theorem id_le (F : Reach) : id ≤ F :=
  F.enlarges

/-- What comes after enlarges what has been. -/
theorem le_comp (F G : Reach) : F ≤ F.comp G :=
  fun M hM => F.monotone M _ hM (G.enlarges M hM)

end Order

end Reach

namespace Simplex
namespace Row

/-- Values of which one becomes that of a row are within the reach of the row. -/
theorem Bounded.fill (hσ : Bounded M σ) (r : Row Coarse) (x : Symbol) :
    Bounded ((Reach.ofRow r).bound M) (Function.update σ x (r.exact.eval σ)) :=
  (hσ.mono (le_max_left _ _)).update ((abs_eval_le hσ r).trans (le_max_right _ _))

/-- Values of which one is moved are within the reach of the move. -/
theorem Bounded.move (hσ : Bounded M σ) (x : Symbol) (d : Rat) :
    Bounded ((Reach.ofMove d).bound M) (Function.update σ x (σ x + d)) :=
  (hσ.mono (le_add_of_nonneg_right (abs_nonneg d))).update
    ((abs_add_le _ _).trans (add_le_add (hσ x) (le_refl _)))

end Row
end Simplex

end Tether
