import Tether.Proofs.Exact.Tiers

/-!
# Rows that lose cells

A coarse solver drops every cell whose coefficient is near zero.  What a row of it comes to
in rational numbers differs from the exact result by what the dropped cells come to, and
that is less than the tolerance times the values of their symbols.

Constants are never dropped, and neither are the cells of a row that is solved for a
symbol: only insertion loses anything.
-/

namespace Tether

open Simplex

section Readings

/-- The expression as one of rational numbers. -/
def Expression.exact (e : Expression Coarse) : Expression Rat :=
  ⟨e.terms.map (fun t => ⟨t.unknown, t.coefficient.value, t.isConstant⟩), e.constant.value⟩

theorem Coarse.eq_of_value_eq {a b : Coarse} (h : a.value = b.value) : a = b :=
  congrArg Coarse.mk h

theorem Coarse.epsilon_pos : 0 < Coarse.epsilon := by
  decide +kernel

/-- What is near zero is less than the tolerance. -/
theorem Coarse.abs_lt_of_nearZero {a : Coarse} (h : Scalar.nearZero a = true) :
    |a.value| < Coarse.epsilon :=
  abs_lt.mpr (decide_eq_true_iff.mp h)

/-- What is not near zero is not zero. -/
theorem Coarse.ne_zero_of_nearZero {a : Coarse} (h : Scalar.nearZero a = false) :
    a.value ≠ 0 := by
  intro hz
  have hnot : ¬ (-Coarse.epsilon < a.value ∧ a.value < Coarse.epsilon) :=
    decide_eq_false_iff_not.mp h
  rw [hz] at hnot
  exact hnot ⟨neg_lt_zero.mpr Coarse.epsilon_pos, Coarse.epsilon_pos⟩

end Readings

namespace Simplex
namespace Row

section Exact

/-- The row as one of rational numbers. -/
def exact (r : Row Coarse) : Row Rat :=
  ⟨r.constant.value, r.cells.map (fun c => (c.1, c.2.value))⟩

variable {r : Row Coarse} (x y : Symbol)

@[simp] theorem symbols_exact : r.exact.symbols = r.symbols := by
  simp [exact, symbols, Function.comp_def]

theorem Ordered.exact (h : r.Ordered) : r.exact.Ordered :=
  List.pairwise_map.mpr h

@[simp] theorem get?_exact : r.exact.get? x = (r.get? x).map (·.value) := by
  simp [get?, Row.exact, List.find?_map, Function.comp_def]

theorem mem_symbols_of_exact {x : Symbol} (h : r.exact.coefficient x ≠ 0) : x ∈ r.symbols := by
  have hm := mem_symbols_of_coefficient h
  rwa [symbols_exact] at hm

@[simp] theorem coefficient_exact : r.exact.coefficient x = (r.coefficient x).value := by
  rw [coefficient, coefficient, get?_exact]
  cases r.get? x <;> rfl

theorem exact_erase : (r.erase x).exact = r.exact.erase x := by
  simp [erase, Row.exact, List.eraseP_map, Function.comp_def]

theorem exact_shift (a : Coarse) : (r.shift a).exact = r.exact.shift a.value := by
  rfl

/-- Coefficients that are changed alike stay alike. -/
theorem map_mapCells {f : Coarse → Coarse} {g : Rat → Rat} (h : ∀ b, (f b).value = g b.value)
    (l : List (Cell Coarse)) :
    (l.map (fun c => (c.1, f c.2))).map (fun c => (c.1, c.2.value)) =
      (l.map (fun c => (c.1, c.2.value))).map (fun c => (c.1, g c.2)) := by
  rw [List.map_map, List.map_map]
  exact List.map_congr_left (fun c _ => congrArg (Prod.mk c.1) (h c.2))

theorem exact_negate : r.negate.exact = r.exact.negate :=
  congrArg (Row.mk _) (map_mapCells (f := fun b => -b) (g := fun b => -b) (fun _ => rfl) _)

theorem exact_solveFor : (r.solveFor x).exact = r.exact.solveFor x := by
  have hfactor : (-Scalar.one / (r.get? x).getD Scalar.one).value =
      -Scalar.one / (r.exact.get? x).getD Scalar.one := by
    rw [get?_exact]
    cases r.get? x <;> rfl
  rw [solveFor, solveFor, ← hfactor, ← exact_erase]
  exact congrArg (Row.mk _) (map_mapCells (f := (· * (-Scalar.one / (r.get? x).getD Scalar.one)))
    (g := (· * (-Scalar.one / (r.get? x).getD Scalar.one).value)) (fun _ => rfl) _)

end Exact

section Clean

variable {r q : Row Coarse} {x y : Symbol} {a : Coarse}

/-- Only zero is dropped. -/
def Clean (a : Coarse) : Prop :=
  Scalar.nearZero a = true → a.value = 0

theorem map_consCell (h : Clean a) (l : List (Cell Coarse)) :
    (consCell x a l).map (fun c => (c.1, c.2.value)) =
      consCell x a.value (l.map (fun c => (c.1, c.2.value))) := by
  unfold consCell
  by_cases hz : Scalar.nearZero a = true
  · rw [if_pos hz, if_pos (Scalar.nearZero_iff.mpr (h hz))]
  · have hne := Coarse.ne_zero_of_nearZero (Bool.eq_false_iff.mpr hz)
    rw [if_neg hz, if_neg (fun hz' => hne (Scalar.nearZero_iff.mp hz'))]
    rfl

theorem map_insertCell {l : List (Cell Coarse)} (hl : l.Pairwise Precedes)
    (h : Clean (((l.find? (fun c => c.1 == x)).map (·.2)).getD Scalar.zero + a)) :
    (insertCell x a l).map (fun c => (c.1, c.2.value)) =
      insertCell x a.value (l.map (fun c => (c.1, c.2.value))) := by
  induction l with
  | nil => exact map_consCell h []
  | cons c rest ih =>
      obtain ⟨y, b⟩ := c
      obtain ⟨hfirst, hrest⟩ := List.pairwise_cons.mp hl
      rw [List.map_cons, insertCell, insertCell]
      split_ifs with hlt heq
      · -- the symbol comes before all that are there
        have hnone : ((y, b) :: rest).find? (fun c => c.1 == x) = none := by
          refine List.find?_eq_none.mpr (fun d hd he => ?_)
          have hx : d.1 = x := beq_iff_eq.mp he
          rcases List.mem_cons.mp hd with rfl | hd
          · exact Nat.ne_of_lt hlt (congrArg Symbol.id hx.symm)
          · have hle := (hfirst d hd).1
            rw [hx] at hle
            exact Nat.lt_irrefl _ (Nat.lt_of_lt_of_le hlt hle)
        rw [hnone] at h
        exact map_consCell h ((y, b) :: rest)
      · subst heq
        rw [List.find?_cons_of_pos (by simp)] at h
        exact map_consCell h rest
      · rw [List.find?_cons_of_neg (by simpa using fun he => heq he.symm)] at h
        rw [List.map_cons, ih hrest h]

/-- Inserting loses nothing if it drops nothing but zero. -/
theorem exact_insert (hr : r.Ordered) (h : Clean (r.coefficient x + a)) :
    (r.insert x a).exact = r.exact.insert x a.value :=
  congrArg (Row.mk _) (map_insertCell hr h)

theorem exact_foldl_insert {l : List (Cell Coarse)} (hr : r.Ordered) (hl : l.Pairwise Precedes)
    (h : ∀ c ∈ l, Clean (r.coefficient c.1 + c.2 * a)) :
    (l.foldl (fun r c => r.insert c.1 (c.2 * a)) r).exact =
      (l.map (fun c => (c.1, c.2.value))).foldl
        (fun r c => r.insert c.1 (c.2 * a.value)) r.exact := by
  induction l generalizing r with
  | nil => rfl
  | cons c rest ih =>
      obtain ⟨hfirst, hrest⟩ := List.pairwise_cons.mp hl
      have hinsert := exact_insert hr (h c (by simp))
      refine (ih (ordered_insert hr _ _) hrest (fun d hd => ?_)).trans (by rw [hinsert]; rfl)
      -- the other symbols keep their coefficients
      have hkept : (r.insert c.1 (c.2 * a)).coefficient d.1 = r.coefficient d.1 := by
        have hcoeff := coefficient_insert hr.exact c.1 d.1 (c.2 * a).value
        rw [← hinsert, if_neg (hfirst d hd).2, add_zero, coefficient_exact,
          coefficient_exact] at hcoeff
        exact Coarse.eq_of_value_eq hcoeff
      rw [hkept]
      exact h d (List.mem_cons_of_mem c hd)

/-- Adding a row loses nothing if every sum is kept that is not zero. -/
theorem exact_addRow (hr : r.Ordered) (hq : q.Ordered)
    (h : ∀ c ∈ q.cells, Clean (r.coefficient c.1 + c.2 * a)) :
    (r.addRow q a).exact = r.exact.addRow q.exact a.value :=
  exact_foldl_insert (r := r.shift (q.constant * a)) hr hq h

/-- A row is solved without loss for one of its symbols in favour of a new one. -/
theorem exact_exchange (hr : r.Ordered) (hx : x ∉ r.symbols) :
    (r.exchange x y).exact = r.exact.exchange x y := by
  have hclean : Clean (r.coefficient x + -Scalar.one) := by
    rw [coefficient, get?_eq_none_iff.mpr hx, Option.getD_none]
    unfold Clean
    decide +kernel
  rw [exchange, exact_solveFor, exact_insert hr hclean]
  rfl

end Clean

section Losses

variable {r q : Row Coarse} {x : Symbol} {a : Coarse} {σ τ : Symbol → Rat} {M N d v : Rat}

/-- No value is larger than a bound. -/
def Bounded (M : Rat) (σ : Symbol → Rat) : Prop :=
  ∀ x, |σ x| ≤ M

theorem Bounded.mono (h : Bounded M σ) (hN : M ≤ N) : Bounded N σ :=
  fun x => (h x).trans hN

theorem Bounded.update (h : Bounded M σ) (hv : |v| ≤ M) : Bounded M (Function.update σ x v) := by
  intro y
  by_cases hy : y = x
  · rwa [hy, Function.update_self]
  · rw [Function.update_of_ne hy]
    exact h y

/-- Values that are close to bounded ones are bounded. -/
theorem Bounded.of_close (h : Bounded M σ) (hclose : ∀ x, |τ x - σ x| ≤ d) :
    Bounded (M + d) τ := by
  intro x
  have hsum : τ x = σ x + (τ x - σ x) := by ring
  rw [hsum]
  exact (abs_add_le _ _).trans (add_le_add (h x) (hclose x))

theorem abs_sumCells_consCell_le (σ : Symbol → Rat) (x : Symbol) (a : Coarse)
    (l : List (Cell Coarse)) :
    |sumCells σ ((consCell x a l).map (fun c => (c.1, c.2.value))) -
      (sumCells σ (l.map (fun c => (c.1, c.2.value))) + a.value * σ x)| ≤
        Coarse.epsilon * |σ x| := by
  unfold consCell
  split
  · rename_i hz
    rw [sub_add_cancel_left, abs_neg, abs_mul]
    exact mul_le_mul_of_nonneg_right (Coarse.abs_lt_of_nearZero hz).le (abs_nonneg _)
  · rw [List.map_cons, sumCells_cons, add_comm, sub_self, abs_zero]
    exact mul_nonneg Coarse.epsilon_pos.le (abs_nonneg _)

theorem abs_sumCells_insertCell_le (σ : Symbol → Rat) (x : Symbol) (a : Coarse)
    (l : List (Cell Coarse)) :
    |sumCells σ ((insertCell x a l).map (fun c => (c.1, c.2.value))) -
      (sumCells σ (l.map (fun c => (c.1, c.2.value))) + a.value * σ x)| ≤
        Coarse.epsilon * |σ x| := by
  have hzero : (Scalar.zero + a).value = a.value := Rat.zero_add _
  induction l with
  | nil =>
      have hcons := abs_sumCells_consCell_le σ x (Scalar.zero + a) []
      rwa [hzero] at hcons
  | cons c rest ih =>
      obtain ⟨y, b⟩ := c
      unfold insertCell
      split_ifs with hlt heq
      · have hcons := abs_sumCells_consCell_le σ x (Scalar.zero + a) ((y, b) :: rest)
        rwa [hzero] at hcons
      · subst heq
        have hcons := abs_sumCells_consCell_le σ x (b + a) rest
        have hsum : (b + a).value = b.value + a.value := rfl
        rw [List.map_cons, sumCells_cons]
        rw [hsum] at hcons
        refine le_trans (le_of_eq (congrArg _ ?_)) hcons
        ring
      · rw [List.map_cons, List.map_cons, sumCells_cons, sumCells_cons, add_assoc,
          add_sub_add_left_eq_sub]
        exact ih

/-- Inserting loses less than the tolerance times the value of the symbol. -/
theorem abs_eval_insert_le (σ : Symbol → Rat) (r : Row Coarse) (x : Symbol) (a : Coarse) :
    |(r.insert x a).exact.eval σ - (r.exact.eval σ + a.value * σ x)| ≤
      Coarse.epsilon * |σ x| := by
  have heval : ∀ p : Row Coarse, p.exact.eval σ =
      p.constant.value + sumCells σ (p.cells.map (fun c => (c.1, c.2.value))) := fun _ => rfl
  rw [heval, heval, add_assoc]
  show |(r.constant.value + _) - _| ≤ _
  rw [add_sub_add_left_eq_sub]
  exact abs_sumCells_insertCell_le σ x a r.cells

theorem abs_eval_foldl_insert_le (hσ : Bounded M σ) (l : List (Cell Coarse)) (r : Row Coarse)
    (a : Coarse) :
    |(l.foldl (fun r c => r.insert c.1 (c.2 * a)) r).exact.eval σ -
      (r.exact.eval σ + sumCells σ (l.map (fun c => (c.1, c.2.value))) * a.value)| ≤
        l.length * (Coarse.epsilon * M) := by
  induction l generalizing r with
  | nil =>
      have hnil : sumCells σ [] = 0 := rfl
      simp [hnil]
  | cons c rest ih =>
      have hstep := abs_eval_insert_le σ r c.1 (c.2 * a)
      have hmul : (c.2 * a).value = c.2.value * a.value := rfl
      have hone : Coarse.epsilon * |σ c.1| ≤ Coarse.epsilon * M :=
        mul_le_mul_of_nonneg_left (hσ c.1) Coarse.epsilon_pos.le
      rw [hmul] at hstep
      rw [List.foldl_cons, List.map_cons, sumCells_cons, List.length_cons, Nat.cast_succ,
        add_one_mul]
      refine le_trans (le_of_eq (congrArg _ ?_)) ((abs_add_le _ _).trans
        (add_le_add (ih (r.insert c.1 (c.2 * a))) (hstep.trans hone)))
      ring

/-- Adding a row loses less than the tolerance times the values of its symbols. -/
theorem abs_eval_addRow_le (hσ : Bounded M σ) (r q : Row Coarse) (a : Coarse) :
    |(r.addRow q a).exact.eval σ - (r.exact.eval σ + q.exact.eval σ * a.value)| ≤
      q.cells.length * (Coarse.epsilon * M) := by
  refine le_trans (le_of_eq (congrArg _ ?_))
    (abs_eval_foldl_insert_le hσ q.cells (r.shift (q.constant * a)) a)
  have hshift : (r.shift (q.constant * a)).exact.eval σ =
      r.exact.eval σ + q.constant.value * a.value := by
    rw [exact_shift, eval_shift]
    rfl
  have hq : q.exact.eval σ =
      q.constant.value + sumCells σ (q.cells.map (fun c => (c.1, c.2.value))) := rfl
  rw [hshift, hq]
  unfold addRow
  ring

/-- Substituting loses less than the tolerance times the values of the symbols that come
in. -/
theorem abs_eval_substitute_le (hσ : Bounded M σ) (hr : r.Ordered) (x : Symbol)
    (q : Row Coarse) :
    |(r.substitute x q).exact.eval σ -
      r.exact.eval (Function.update σ x (q.exact.eval σ))| ≤
        q.cells.length * (Coarse.epsilon * M) := by
  have hM : 0 ≤ M := (abs_nonneg _).trans (hσ x)
  rw [hr.exact.eval_update]
  unfold substitute
  cases hx : r.get? x with
  | none =>
      have hcoeff : r.exact.coefficient x = 0 := by
        rw [coefficient, get?_exact, hx]
        rfl
      rw [hcoeff, zero_mul, add_zero]
      dsimp only
      rw [sub_self, abs_zero]
      have := Coarse.epsilon_pos.le
      positivity
  | some b =>
      have hcoeff : r.exact.coefficient x = b.value := by
        rw [coefficient, get?_exact, hx]
        rfl
      refine le_trans (le_of_eq (congrArg _ ?_)) (abs_eval_addRow_le hσ (r.erase x) q b)
      rw [exact_erase, eval_erase, hcoeff]
      ring

end Losses

section Solid

variable {r : Row Coarse} {x : Symbol} {a : Coarse}

/-- No cell is zero. -/
def Solid (r : Row Coarse) : Prop :=
  ∀ c ∈ r.cells, c.2.value ≠ 0

theorem Solid.coefficient_ne_zero (h : r.Solid) (hx : x ∈ r.symbols) :
    r.exact.coefficient x ≠ 0 := by
  have hreduced : r.exact.Reduced := by
    intro c hc
    obtain ⟨d, hd, rfl⟩ := List.mem_map.mp hc
    exact h d hd
  exact hreduced.coefficient_ne_zero (by rwa [symbols_exact])

theorem solid_ofConstant (a : Coarse) : (ofConstant a).Solid := by
  intro c hc
  cases hc

theorem Solid.insert (h : r.Solid) (x : Symbol) (a : Coarse) : (r.insert x a).Solid := by
  intro c hc
  rcases mem_of_mem_insertCell hc with ⟨-, hn⟩ | hc
  · exact Coarse.ne_zero_of_nearZero hn
  · exact h c hc

theorem Solid.erase (h : r.Solid) (x : Symbol) : (r.erase x).Solid :=
  fun c hc => h c (List.mem_of_mem_eraseP hc)

theorem Solid.addRow (h : r.Solid) (q : Row Coarse) (a : Coarse) : (r.addRow q a).Solid :=
  addRow_induction h (fun _ y b _ hp => hp.insert y b)

theorem Solid.negate (h : r.Solid) : r.negate.Solid := by
  intro c hc
  obtain ⟨d, hd, rfl⟩ := List.mem_map.mp hc
  exact neg_ne_zero.mpr (h d hd)

theorem Solid.substitute (h : r.Solid) (x : Symbol) (q : Row Coarse) :
    (r.substitute x q).Solid := by
  unfold Row.substitute
  split
  · exact (h.erase x).addRow q _
  · exact h

end Solid

end Row
end Simplex

end Tether
