import Tether.Proofs.Exact.Solutions

/-!
# Tiers of symbols

Dummies are zero, slacks and errors are not negative, and variables may have
any value.  In this order the kinds form tiers, and no row speaks of a symbol
of a higher tier than the symbol it belongs to: the row of a dummy is a sum of
dummies, and the rows of variables alone speak of variables.

An assignment is lawful if it keeps to the restrictions of the kinds.
-/

namespace Tether
namespace Simplex

section Tiers

/-- How free the symbols of a kind are. -/
def SymbolKind.tier : SymbolKind → Nat
  | .dummy => 0
  | .slack => 1
  | .error => 1
  | .external => 2

/-- How free a symbol is. -/
def Symbol.tier (x : Symbol) : Nat :=
  x.kind.tier

variable {x : Symbol}

theorem Symbol.isDummy_iff : x.isDummy = true ↔ x.tier = 0 := by
  obtain ⟨id, kind⟩ := x
  cases kind <;> simp [isDummy, tier, SymbolKind.tier]

theorem Symbol.isPivotable_iff : x.isPivotable = true ↔ x.tier = 1 := by
  obtain ⟨id, kind⟩ := x
  cases kind <;> simp [isPivotable, tier, SymbolKind.tier]

theorem Symbol.isExternal_iff : x.isExternal = true ↔ x.tier = 2 := by
  obtain ⟨id, kind⟩ := x
  cases kind <;> simp [isExternal, tier, SymbolKind.tier]

theorem Symbol.isDummy_eq_false_iff : x.isDummy = false ↔ x.tier ≠ 0 := by
  rw [← Bool.not_eq_true, isDummy_iff]

theorem Symbol.isExternal_eq_false_iff : x.isExternal = false ↔ x.tier ≠ 2 := by
  rw [← Bool.not_eq_true, isExternal_iff]

theorem Symbol.tier_le_two (x : Symbol) : x.tier ≤ 2 := by
  obtain ⟨id, kind⟩ := x
  cases kind <;> simp [tier, SymbolKind.tier]

end Tiers

namespace Row

/-- A row without zero cells and without symbols above a tier; in the lowest
tier its constant is zero. -/
structure Within (n : Nat) (r : Row Rat) : Prop where
  reduced : r.Reduced
  tiers : ∀ y ∈ r.symbols, y.tier ≤ n
  constant : n = 0 → r.constant = 0

variable {n m : Nat} {r q : Row Rat} {x : Symbol}

theorem Within.mono (h : r.Within n) (hn : n ≤ m) : r.Within m where
  reduced := h.reduced
  tiers := fun y hy => Nat.le_trans (h.tiers y hy) hn
  constant := fun hm => h.constant (by omega)

theorem Within.insert (h : r.Within n) (hx : x.tier ≤ n) (a : Rat) :
    (r.insert x a).Within n where
  reduced := h.reduced.insert x a
  tiers := by
    intro y hy
    rcases mem_symbols_insert hy with rfl | hy
    · exact hx
    · exact h.tiers y hy
  constant := h.constant

theorem Within.erase (h : r.Within n) (x : Symbol) : (r.erase x).Within n where
  reduced := h.reduced.erase x
  tiers := fun y hy => h.tiers y (mem_of_mem_symbols_erase hy)
  constant := h.constant

theorem constant_addRow (r q : Row Rat) (a : Rat) :
    (r.addRow q a).constant = r.constant + q.constant * a := by
  rw [← eval_zero, eval_addRow, eval_zero, eval_zero]

theorem Within.addRow (h : r.Within n) (hq : q.Within n) (a : Rat) :
    (r.addRow q a).Within n where
  reduced := h.reduced.addRow q a
  tiers := fun y hy => (mem_symbols_addRow hy).elim (h.tiers y) (hq.tiers y)
  constant := by
    intro hn
    rw [constant_addRow, h.constant hn, hq.constant hn]
    ring

theorem Within.negate (h : r.Within n) : r.negate.Within n where
  reduced := h.reduced.negate
  tiers := by
    rw [symbols_negate]
    exact h.tiers
  constant := by
    intro hn
    have hk : r.negate.constant = -r.constant := rfl
    rw [hk, h.constant hn, neg_zero]

theorem Within.solveFor (h : r.Within n) (hx : r.coefficient x ≠ 0) :
    (r.solveFor x).Within n where
  reduced := h.reduced.solveFor hx
  tiers := by
    rw [symbols_solveFor]
    exact (h.erase x).tiers
  constant := by
    intro hn
    rw [solveFor_eq hx, h.constant hn]
    exact zero_mul _

theorem Within.exchange (h : r.Within n) (hr : r.Ordered) {leaving entering : Symbol}
    (hne : leaving ≠ entering) (ha : r.coefficient entering ≠ 0) (hl : leaving.tier ≤ n) :
    (r.exchange leaving entering).Within n :=
  (h.insert hl _).solveFor (by rwa [coefficient_insert_leaving hr hne])

theorem Within.substitute (h : r.Within n) (hr : r.Ordered)
    (hq : x ∈ r.symbols → q.Within n) : (r.substitute x q).Within n := by
  by_cases hx : x ∈ r.symbols
  · refine ⟨h.reduced.substitute x q, ?_, ?_⟩
    · intro y hy
      rcases hr.mem_symbols_substitute hy with ⟨hy, -⟩ | ⟨-, hy⟩
      · exact h.tiers y hy
      · exact (hq hx).tiers y hy
    · intro hn
      rw [hr.constant_substitute, h.constant hn, (hq hx).constant hn]
      ring
  · rwa [substitute_of_notMem hx]

end Row
end Simplex

open Simplex

namespace Solver

variable {s : Solver Rat} {x : Symbol} {q r : Row Rat}

section Layers

/-- A solver in solved form whose rows keep to the tiers. -/
structure Layered (s : Solver Rat) : Prop where
  proper : s.Proper
  rows : ∀ b ∈ s.tableau.basics, b.2.Within b.1.tier
  objective : s.objective.Within 1
  artificial : ∀ r ∈ s.artificial, r.Within 1

theorem Layered.ordered (h : s.Layered) {b : Symbol × Row Rat} (hb : b ∈ s.tableau.basics) :
    b.2.Ordered :=
  (h.proper.rows.admits hb).ordered

theorem Layered.withInfeasible (h : s.Layered) {l : List Symbol}
    (hl : ∀ x ∈ l, x ∈ s.infeasible) : Layered { s with infeasible := l } :=
  ⟨h.proper.withInfeasible hl, h.rows, h.objective, h.artificial⟩

theorem mem_of_mem_basics_dropRow {b : Symbol × Row Rat}
    (hb : b ∈ (s.dropRow x).tableau.basics) : b ∈ s.tableau.basics := by
  obtain ⟨hk, hr⟩ := Tableau.mem_basics_iff.mp hb
  rw [Tableau.row?, rowAt?_dropRow] at hr
  split at hr
  · cases hr
  · exact Tableau.mem_basics_iff.mpr ⟨knows_dropRow.mp hk, hr⟩

theorem Layered.dropRow (h : s.Layered) (x : Symbol) : (s.dropRow x).Layered where
  proper := h.proper.dropRow x
  rows := fun b hb => h.rows b (mem_of_mem_basics_dropRow hb)
  objective := h.objective
  artificial := h.artificial

/-- A row may be put in the place of a symbol if it fits wherever the symbol
occurs. -/
theorem Layered.substitute (h : s.Layered) (hq : s.tableau.Admits q)
    (hrows : ∀ b ∈ s.tableau.basics, x ∈ b.2.symbols → q.Within b.1.tier)
    (hobj : x ∈ s.objective.symbols → q.Within 1)
    (hart : ∀ r ∈ s.artificial, x ∈ r.symbols → q.Within 1) : (s.substitute x q).Layered where
  proper := h.proper.substitute x hq
  rows := by
    intro b hb
    obtain ⟨r, hr, he⟩ := mem_basics_substitute.mp hb
    rw [he]
    exact (h.rows _ hr).substitute (h.ordered hr) (hrows _ hr)
  objective := h.objective.substitute h.proper.objective.ordered hobj
  artificial := by
    intro r hr
    obtain ⟨r₀, hr₀, rfl⟩ := Option.map_eq_some_iff.mp hr
    exact (h.artificial r₀ hr₀).substitute (h.proper.artificial r₀ hr₀).ordered (hart r₀ hr₀)

/-- A symbol may enter with a row of its own tier, unless it is in the highest
one and an objective speaks of it. -/
theorem Layered.enter (h : s.Layered) (hx : s.tableau.Knows x) (hq : s.tableau.Admits q)
    (hxq : x ∉ q.symbols) (hw : q.Within x.tier) : (s.enter x q).Layered := by
  have hup : ∀ {n : Nat} {r : Row Rat}, r.Within n → x ∈ r.symbols → q.Within n :=
    fun hr hm => hw.mono (hr.tiers x hm)
  have hs := h.substitute hq (fun b hb => hup (h.rows b hb)) (hup h.objective)
    (fun r hr => hup (h.artificial r hr))
  refine ⟨h.proper.enter hx hq hxq, ?_, hs.objective, hs.artificial⟩
  intro b hb
  rcases (mem_basics_enter hx).mp hb with rfl | ⟨-, hr⟩
  · exact hw
  · exact hs.rows b (mem_basics_substitute.mpr hr)

/-- Symbols of one tier may take turns. -/
theorem Layered.pivot (h : s.Layered) {leaving entering : Symbol}
    (hl : (leaving, r) ∈ s.tableau.basics) (ha : r.coefficient entering ≠ 0)
    (ht : entering.tier = leaving.tier) :
    ((s.dropRow leaving).pivot leaving entering r).Layered := by
  have hm := Row.mem_symbols_of_coefficient ha
  obtain ⟨hk, hrow⟩ := Tableau.mem_basics_iff.mp hl
  have hr := h.proper.rows.admits hl
  refine (h.dropRow leaving).enter (knows_dropRow.mpr (hr.parametric entering hm).1)
    (h.proper.admits_exchange hk hrow) (fun hy => (hr.ordered.mem_symbols_exchange hy).1 rfl) ?_
  rw [ht]
  exact (h.rows _ hl).exchange hr.ordered (h.proper.ne_of_basic hl hm) ha (Nat.le_refl _)

theorem Layered.dropArtificial (h : s.Layered) (x : Symbol) : (s.dropArtificial x).Layered where
  proper := h.proper.dropArtificial x
  rows := by
    intro b hb
    obtain ⟨r, hr, he⟩ := mem_basics_dropArtificial.mp hb
    rw [he]
    exact (h.rows _ hr).erase x
  objective := h.objective.erase x
  artificial := h.artificial

end Layers

end Solver

section Laws

namespace Simplex

/-- The assignment keeps to the restrictions of the kinds. -/
structure Tableau.Lawful (t : Tableau Rat) (σ : Symbol → Rat) : Prop where
  nonneg : ∀ x, t.Knows x → x.tier = 1 → 0 ≤ σ x
  zero : ∀ x, t.Knows x → x.tier = 0 → σ x = 0

/-- Only dummies may have a negative coefficient: the row is least where every
symbol is zero. -/
def Row.Settled (r : Row Rat) : Prop :=
  ∀ x, x.tier ≠ 0 → 0 ≤ r.coefficient x

variable {t : Tableau Rat} {r : Row Rat} {σ : Symbol → Rat}

theorem Row.sumCells_nonneg {l : List (Cell Rat)} (h : ∀ c ∈ l, 0 ≤ c.2 * σ c.1) :
    0 ≤ sumCells σ l := by
  induction l with
  | nil => exact Rat.le_refl
  | cons c rest ih =>
      rw [sumCells_cons]
      have hrest := ih (fun d hd => h d (List.mem_cons_of_mem c hd))
      exact add_nonneg (h c (by simp)) hrest

theorem Row.Ordered.coefficient_of_mem (h : r.Ordered) {c : Cell Rat} (hc : c ∈ r.cells) :
    r.coefficient c.1 = c.2 := by
  rw [coefficient, h.get?_eq_some_iff.mpr hc, Option.getD_some]

/-- Lawful values cannot bring a settled row below its constant. -/
theorem Row.Settled.constant_le (h : r.Settled) (hr : t.Admits r) (hw : r.Within 1)
    (hσ : t.Lawful σ) : r.constant ≤ r.eval σ := by
  have hcells : ∀ c ∈ r.cells, 0 ≤ c.2 * σ c.1 := by
    intro c hc
    have hm : c.1 ∈ r.symbols := Row.mem_symbols_iff.mpr ⟨c.2, hc⟩
    have hk := (hr.parametric c.1 hm).1
    by_cases ht : c.1.tier = 0
    · rw [hσ.zero c.1 hk ht, mul_zero]
    · have hle := hw.tiers c.1 hm
      have hpos := h c.1 ht
      rw [hr.ordered.coefficient_of_mem hc] at hpos
      exact mul_nonneg hpos (hσ.nonneg c.1 hk (by omega))
  rw [Row.eval_eq]
  linarith [Row.sumCells_nonneg hcells]

end Simplex

namespace Solver

variable {s : Solver Rat} {τ : Symbol → Rat}

/-- Every restricted basic symbol has a value that is not negative. -/
def Feasible (s : Solver Rat) : Prop :=
  ∀ b ∈ s.tableau.basics, b.1.tier = 1 → 0 ≤ b.2.constant

theorem Feasible.dropRow (h : s.Feasible) (x : Symbol) : (s.dropRow x).Feasible :=
  fun b hb => h b (mem_of_mem_basics_dropRow hb)

/-- If the parametric dummies are zero, then so are the basic ones. -/
theorem Layered.fill_eq_zero (h : s.Layered) (hzero : ∀ x, x.tier = 0 → τ x = 0) {x : Symbol}
    (hk : s.tableau.Knows x) (ht : x.tier = 0) : s.tableau.fill τ x = 0 := by
  cases hr : s.tableau.row? x with
  | none =>
      rw [Tableau.fill_of_parametric hr]
      exact hzero x ht
  | some r =>
      have hw := h.rows (x, r) (Tableau.mem_basics_iff.mpr ⟨hk, hr⟩)
      have heval : r.eval τ = r.eval 0 := by
        refine Row.eval_congr (fun y hy => hzero y ?_)
        have := hw.tiers y hy
        dsimp only at this
        omega
      rw [Tableau.fill_of_basic hr, heval, Row.eval_zero]
      exact hw.constant ht

/-- Lawful values of the parametric symbols and of the restricted basic ones are
lawful. -/
theorem Layered.lawful_fill (h : s.Layered) (hpos : ∀ x, x.tier = 1 → 0 ≤ τ x)
    (hzero : ∀ x, x.tier = 0 → τ x = 0)
    (hrows : ∀ b ∈ s.tableau.basics, b.1.tier = 1 → 0 ≤ b.2.eval τ) :
    s.tableau.Lawful (s.tableau.fill τ) := by
  refine ⟨fun x hk ht => ?_, fun x hk ht => h.fill_eq_zero hzero hk ht⟩
  cases hr : s.tableau.row? x with
  | none =>
      rw [Tableau.fill_of_parametric hr]
      exact hpos x ht
  | some r =>
      rw [Tableau.fill_of_basic hr]
      exact hrows (x, r) (Tableau.mem_basics_iff.mpr ⟨hk, hr⟩) ht

/-- In a feasible solver the basic solution is lawful. -/
theorem Layered.lawful_basic (h : s.Layered) (hf : s.Feasible) :
    s.tableau.Lawful (s.tableau.fill 0) :=
  h.lawful_fill (fun _ _ => Rat.le_refl) (fun _ _ => rfl)
    (fun b hb ht => by rw [Row.eval_zero]; exact hf b hb ht)

end Solver

end Laws

end Tether
