import Mathlib.Algebra.Order.Field.Basic
import Mathlib.Algebra.Order.Field.Rat
import Mathlib.Tactic.FieldSimp
import Mathlib.Tactic.Linarith
import Mathlib.Tactic.Ring
import Tether.Proofs.Row.Symbols
import Tether.Scalar.Rational

/-!
# Rows in exact arithmetic

Over the rational numbers a row is a linear function of the symbols in it, and
every operation on rows is the operation on functions that it looks like.

The coefficients of an ordered row can be read off its values, so what an
operation does to coefficients follows from what it does to values.
-/

namespace Tether

namespace Scalar

variable {a : Rat}

@[simp] theorem one_eq : (one : Rat) = 1 := by
  rfl

theorem negative_iff : negative a = true ↔ a < 0 :=
  decide_eq_true_iff

theorem negative_eq_false_iff : negative a = false ↔ 0 ≤ a := by
  rw [← Bool.not_eq_true, negative_iff, not_lt]

theorem positive_iff : positive a = true ↔ 0 < a :=
  decide_eq_true_iff

theorem positive_eq_false_iff : positive a = false ↔ a ≤ 0 := by
  rw [← Bool.not_eq_true, positive_iff, not_lt]

theorem isZero_iff : isZero a = true ↔ a = 0 :=
  decide_eq_true_iff

theorem nearZero_iff : nearZero a = true ↔ a = 0 :=
  decide_eq_true_iff

theorem infeasible_iff : infeasible a = true ↔ a < 0 :=
  decide_eq_true_iff

end Scalar

namespace Simplex
namespace Row

variable {r q : Row Rat} {σ τ : Symbol → Rat} {x y : Symbol}

section Cells

theorem sumCells_cons (σ : Symbol → Rat) (c : Cell Rat) (l : List (Cell Rat)) :
    sumCells σ (c :: l) = c.2 * σ c.1 + sumCells σ l := by
  rfl

theorem sumCells_consCell (σ : Symbol → Rat) (x : Symbol) (a : Rat) (l : List (Cell Rat)) :
    sumCells σ (consCell x a l) = a * σ x + sumCells σ l := by
  by_cases h : Scalar.nearZero a = true
  · have ha : a = 0 := Scalar.nearZero_iff.mp h
    rw [consCell, if_pos h, ha]
    ring
  · rw [consCell, if_neg h]
    rfl

theorem sumCells_insertCell (σ : Symbol → Rat) (x : Symbol) (a : Rat) (l : List (Cell Rat)) :
    sumCells σ (insertCell x a l) = a * σ x + sumCells σ l := by
  have hzero : ∀ b : Rat, Scalar.zero + b = b := Rat.zero_add
  induction l with
  | nil => rw [insertCell, sumCells_consCell, hzero]
  | cons c rest ih =>
      obtain ⟨y, b⟩ := c
      unfold insertCell
      split_ifs with hlt heq
      · rw [sumCells_consCell, hzero]
      · subst heq
        have hadd : sumCells σ (consCell x (b + a) rest) = (b + a) * σ x + sumCells σ rest :=
          sumCells_consCell σ x (b + a) rest
        rw [sumCells_cons]
        exact hadd.trans (by ring)
      · rw [sumCells_cons, sumCells_cons, ih]
        ring

theorem sumCells_map_mul (σ : Symbol → Rat) (a : Rat) (l : List (Cell Rat)) :
    sumCells σ (l.map (fun c => (c.1, c.2 * a))) = sumCells σ l * a := by
  induction l with
  | nil => exact (zero_mul a).symm
  | cons c rest ih =>
      rw [List.map_cons, sumCells_cons, sumCells_cons, ih]
      ring

theorem sumCells_congr {l : List (Cell Rat)} (h : ∀ c ∈ l, σ c.1 = τ c.1) :
    sumCells σ l = sumCells τ l := by
  induction l with
  | nil => rfl
  | cons c rest ih =>
      have hrest := ih (fun d hd => h d (List.mem_cons_of_mem c hd))
      rw [sumCells_cons, sumCells_cons, h c (by simp), hrest]

theorem sumCells_zero (l : List (Cell Rat)) : sumCells 0 l = 0 := by
  induction l with
  | nil => rfl
  | cons c rest ih =>
      rw [sumCells_cons, ih, Pi.zero_apply]
      ring

end Cells

section Values

theorem eval_eq (σ : Symbol → Rat) (r : Row Rat) :
    r.eval σ = r.constant + sumCells σ r.cells := by
  rfl

@[simp] theorem eval_zero (r : Row Rat) : r.eval 0 = r.constant := by
  rw [eval_eq, sumCells_zero]
  ring

theorem eval_congr (h : ∀ y ∈ r.symbols, σ y = τ y) : r.eval σ = r.eval τ := by
  have hcells : sumCells σ r.cells = sumCells τ r.cells :=
    sumCells_congr (fun c hc => h c.1 (mem_symbols_iff.mpr ⟨c.2, hc⟩))
  rw [eval_eq, eval_eq, hcells]

/-- A row does not depend on a symbol that is not in it. -/
theorem eval_update_of_notMem (h : x ∉ r.symbols) (σ : Symbol → Rat) (v : Rat) :
    r.eval (Function.update σ x v) = r.eval σ := by
  refine eval_congr (fun y hy => Function.update_of_ne ?_ v σ)
  rintro rfl
  exact h hy

theorem eval_insert (r : Row Rat) (x : Symbol) (a : Rat) :
    (r.insert x a).eval σ = r.eval σ + a * σ x := by
  rw [eval_eq, eval_eq, insert, sumCells_insertCell]
  ring

theorem eval_shift (r : Row Rat) (a : Rat) : (r.shift a).eval σ = r.eval σ + a := by
  have h : (r.shift a).eval σ = (r.constant + a) + sumCells σ r.cells := rfl
  rw [h, eval_eq]
  ring

theorem eval_foldl_insert (l : List (Cell Rat)) (a : Rat) (r : Row Rat) :
    (l.foldl (fun r c => r.insert c.1 (c.2 * a)) r).eval σ = r.eval σ + sumCells σ l * a := by
  induction l generalizing r with
  | nil => exact (by rw [zero_mul, add_zero] : r.eval σ = r.eval σ + 0 * a)
  | cons c rest ih =>
      rw [List.foldl_cons, ih, eval_insert, sumCells_cons]
      ring

theorem eval_addRow (r q : Row Rat) (a : Rat) :
    (r.addRow q a).eval σ = r.eval σ + q.eval σ * a := by
  unfold addRow
  rw [eval_foldl_insert, eval_shift, eval_eq σ q]
  ring

theorem eval_negate (r : Row Rat) : r.negate.eval σ = -r.eval σ := by
  have hcells : r.cells.map (fun c => (c.1, -c.2)) =
      r.cells.map (fun c => (c.1, c.2 * (-1))) := by
    refine List.map_congr_left (fun c _ => ?_)
    rw [mul_neg_one]
  have h : r.negate.eval σ = -r.constant + sumCells σ (r.cells.map (fun c => (c.1, -c.2))) := rfl
  rw [h, hcells, sumCells_map_mul, eval_eq]
  ring

theorem coefficient_of_notMem (h : x ∉ r.symbols) : r.coefficient x = 0 := by
  rw [coefficient, get?_eq_none_iff.mpr h]
  rfl

theorem get?_of_coefficient (h : r.coefficient x ≠ 0) :
    r.get? x = some (r.coefficient x) := by
  unfold coefficient at h ⊢
  cases hx : r.get? x with
  | none =>
      rw [hx] at h
      exact absurd rfl h
  | some a => rfl

theorem mem_symbols_of_coefficient (h : r.coefficient x ≠ 0) : x ∈ r.symbols := by
  by_contra hx
  exact h (coefficient_of_notMem hx)

theorem sumCells_eraseP (x : Symbol) (l : List (Cell Rat)) :
    sumCells σ (l.eraseP (fun c => c.1 == x)) =
      sumCells σ l - ((l.find? (fun c => c.1 == x)).map (·.2)).getD 0 * σ x := by
  induction l with
  | nil => exact (by rw [zero_mul, sub_zero] : (0 : Rat) = 0 - 0 * σ x)
  | cons c rest ih =>
      by_cases h : (c.1 == x) = true
      · have hx : c.1 = x := beq_iff_eq.mp h
        rw [List.eraseP_cons_of_pos (p := fun c : Cell Rat => c.1 == x) h,
          List.find?_cons_of_pos (p := fun c : Cell Rat => c.1 == x) h, sumCells_cons,
          Option.map_some, Option.getD_some, hx]
        ring
      · rw [List.eraseP_cons_of_neg (p := fun c : Cell Rat => c.1 == x) h,
          List.find?_cons_of_neg (p := fun c : Cell Rat => c.1 == x) h, sumCells_cons,
          sumCells_cons, ih]
        ring

theorem eval_erase (r : Row Rat) (x : Symbol) :
    (r.erase x).eval σ = r.eval σ - r.coefficient x * σ x := by
  have hcoeff : r.coefficient x =
      ((r.cells.find? (fun c => c.1 == x)).map (·.2)).getD 0 := rfl
  rw [erase, eval_eq, eval_eq, sumCells_eraseP, hcoeff]
  exact (add_sub_assoc r.constant _ _).symm

end Values

section Solving

theorem solveFor_eq (h : r.coefficient x ≠ 0) :
    r.solveFor x = ⟨r.constant * (-1 / r.coefficient x),
      (r.erase x).cells.map (fun c => (c.1, c.2 * (-1 / r.coefficient x)))⟩ := by
  have hfactor : -Scalar.one / (r.get? x).getD Scalar.one = -1 / r.coefficient x := by
    rw [get?_of_coefficient h, Option.getD_some, Scalar.one_eq]
  rw [solveFor, hfactor]

/-- Solving a row for a symbol gives the value at which the row is zero. -/
theorem eval_solveFor (h : r.coefficient x ≠ 0) :
    (r.solveFor x).eval σ = σ x - r.eval σ / r.coefficient x := by
  have he := eval_erase r x (σ := σ)
  rw [eval_eq, erase] at he
  rw [solveFor_eq h, eval_eq, sumCells_map_mul, erase]
  dsimp only at he ⊢
  field_simp
  linarith

end Solving

section Coefficients

/-- Changing one symbol changes an ordered row in proportion. -/
theorem Ordered.eval_update (h : r.Ordered) (σ : Symbol → Rat) (x : Symbol) (v : Rat) :
    r.eval (Function.update σ x v) = r.eval σ + r.coefficient x * (v - σ x) := by
  have herase : (r.erase x).eval (Function.update σ x v) = (r.erase x).eval σ :=
    eval_update_of_notMem (h.notMem_symbols_erase x) σ v
  rw [eval_erase, eval_erase, Function.update_self] at herase
  linarith

/-- A coefficient is what one unit of its symbol adds to the row. -/
theorem Ordered.coefficient_eq (h : r.Ordered) (x : Symbol) :
    r.coefficient x = r.eval (Function.update 0 x 1) - r.constant := by
  rw [h.eval_update, eval_zero, Pi.zero_apply]
  ring

theorem coefficient_insert (h : r.Ordered) (x y : Symbol) (a : Rat) :
    (r.insert x a).coefficient y = r.coefficient y + if x = y then a else 0 := by
  rw [(ordered_insert h x a).coefficient_eq, eval_insert, h.coefficient_eq, insert,
    Function.update_apply, Pi.zero_apply]
  split <;> ring

theorem coefficient_negate (h : r.Ordered) (y : Symbol) :
    r.negate.coefficient y = -r.coefficient y := by
  rw [(ordered_negate h).coefficient_eq, eval_negate, h.coefficient_eq]
  have hk : r.negate.constant = -r.constant := rfl
  rw [hk]
  ring

end Coefficients

section Exchange

variable {leaving entering : Symbol}

theorem coefficient_insert_leaving (h : r.Ordered) (hne : leaving ≠ entering) :
    (r.insert leaving (-Scalar.one)).coefficient entering = r.coefficient entering := by
  rw [coefficient_insert h, if_neg hne, add_zero]

/-- Exchanging two symbols gives the value of the one at which the row equals
the other. -/
theorem eval_exchange (h : r.Ordered) (hne : leaving ≠ entering)
    (ha : r.coefficient entering ≠ 0) :
    (r.exchange leaving entering).eval σ =
      σ entering - (r.eval σ - σ leaving) / r.coefficient entering := by
  have hcoeff := coefficient_insert_leaving h hne
  rw [exchange, eval_solveFor (by rwa [hcoeff]), hcoeff, eval_insert, Scalar.one_eq]
  ring

theorem constant_exchange (h : r.Ordered) (hne : leaving ≠ entering)
    (ha : r.coefficient entering ≠ 0) :
    (r.exchange leaving entering).constant = -r.constant / r.coefficient entering := by
  rw [← eval_zero, eval_exchange h hne ha, eval_zero, Pi.zero_apply, Pi.zero_apply]
  ring

theorem coefficient_exchange (h : r.Ordered) (hne : leaving ≠ entering)
    (ha : r.coefficient entering ≠ 0) (hl : leaving ∉ r.symbols) (y : Symbol) :
    (r.exchange leaving entering).coefficient y =
      if y = entering then 0
      else if y = leaving then 1 / r.coefficient entering
      else -r.coefficient y / r.coefficient entering := by
  rw [(ordered_exchange h leaving entering).coefficient_eq, eval_exchange h hne ha,
    constant_exchange h hne ha, h.eval_update, eval_zero]
  simp only [Function.update_apply, Pi.zero_apply]
  by_cases he : y = entering
  · subst he
    rw [if_pos rfl, if_neg hne, if_pos rfl]
    field_simp
    ring
  · rw [if_neg (Ne.symm he), if_neg he]
    by_cases hy : y = leaving
    · subst hy
      rw [if_pos rfl, if_pos rfl, coefficient_of_notMem hl]
      field_simp
      ring
    · rw [if_neg (Ne.symm hy), if_neg hy]
      field_simp
      ring

end Exchange

section Substitute

/-- Substituting changes the value of the replaced symbol to that of the
replacement. -/
theorem Ordered.eval_substitute (h : r.Ordered) (x : Symbol) (q : Row Rat) :
    (r.substitute x q).eval σ = r.eval (Function.update σ x (q.eval σ)) := by
  rw [h.eval_update]
  by_cases hx : x ∈ r.symbols
  · obtain ⟨a, ha⟩ : ∃ a, r.get? x = some a :=
      Option.ne_none_iff_exists'.mp (fun hn => get?_eq_none_iff.mp hn hx)
    have hcoeff : r.coefficient x = a := by rw [coefficient, ha, Option.getD_some]
    simp only [substitute, ha]
    rw [eval_addRow, eval_erase, hcoeff]
    ring
  · rw [substitute_of_notMem hx, coefficient_of_notMem hx]
    ring

theorem Ordered.constant_substitute (h : r.Ordered) (x : Symbol) (q : Row Rat) :
    (r.substitute x q).constant = r.constant + r.coefficient x * q.constant := by
  rw [← eval_zero, h.eval_substitute, h.eval_update, eval_zero, eval_zero, Pi.zero_apply]
  ring

theorem Ordered.coefficient_substitute (h : r.Ordered) (hq : q.Ordered) (x y : Symbol) :
    (r.substitute x q).coefficient y =
      (if y = x then 0 else r.coefficient y) + r.coefficient x * q.coefficient y := by
  rw [(ordered_substitute h x q).coefficient_eq, h.eval_substitute, h.eval_update,
    h.eval_update, hq.eval_update, h.constant_substitute, eval_zero, eval_zero,
    Function.update_apply, Pi.zero_apply, Pi.zero_apply]
  split_ifs with h₁ h₂ h₂
  · subst h₁
    ring
  · exact absurd h₁.symm h₂
  · exact absurd h₂.symm h₁
  · ring

end Substitute

section Reduced

/-- No cell of the row is zero. -/
def Reduced (r : Row Rat) : Prop :=
  ∀ c ∈ r.cells, c.2 ≠ 0

theorem Reduced.coefficient_ne_zero (h : r.Reduced) (hx : x ∈ r.symbols) :
    r.coefficient x ≠ 0 := by
  obtain ⟨a, ha⟩ : ∃ a, r.get? x = some a :=
    Option.ne_none_iff_exists'.mp (fun hn => get?_eq_none_iff.mp hn hx)
  rw [coefficient, ha, Option.getD_some]
  exact h (x, a) (mem_cells_of_get? ha)

theorem reduced_ofConstant (a : Rat) : (ofConstant a).Reduced := by
  intro c hc
  cases hc

theorem Reduced.insert (h : r.Reduced) (x : Symbol) (a : Rat) : (r.insert x a).Reduced := by
  intro c hc
  rcases mem_of_mem_insertCell hc with ⟨-, hn⟩ | hc
  · exact fun he => Bool.eq_false_iff.mp hn (Scalar.nearZero_iff.mpr he)
  · exact h c hc

theorem Reduced.erase (h : r.Reduced) (x : Symbol) : (r.erase x).Reduced :=
  fun c hc => h c (List.mem_of_mem_eraseP hc)

theorem Reduced.shift (h : r.Reduced) (a : Rat) : (r.shift a).Reduced :=
  h

theorem Reduced.addRow (h : r.Reduced) (q : Row Rat) (a : Rat) : (r.addRow q a).Reduced :=
  addRow_induction (h.shift _) (fun _ y b _ hp => hp.insert y b)

theorem Reduced.negate (h : r.Reduced) : r.negate.Reduced := by
  intro c hc
  obtain ⟨d, hd, rfl⟩ := List.mem_map.mp hc
  exact neg_ne_zero.mpr (h d hd)

theorem Reduced.solveFor (h : r.Reduced) (hx : r.coefficient x ≠ 0) :
    (r.solveFor x).Reduced := by
  rw [solveFor_eq hx]
  intro c hc
  obtain ⟨d, hd, rfl⟩ := List.mem_map.mp hc
  exact mul_ne_zero (h.erase x d hd) (div_ne_zero (by norm_num) hx)

theorem Reduced.substitute (h : r.Reduced) (x : Symbol) (q : Row Rat) :
    (r.substitute x q).Reduced := by
  unfold Row.substitute
  split
  · exact (h.erase x).addRow q _
  · exact h

end Reduced

end Row
end Simplex
end Tether
