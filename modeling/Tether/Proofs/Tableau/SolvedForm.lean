import Tether.Proofs.Tableau.Slots

/-!
# Solved form

A tableau admits a row that is ordered and speaks of parametric symbols only.
It is in solved form if it admits each of its own rows.

Nothing here uses a law of arithmetic: the operations on rows never bring in
a symbol that is not in an operand.
-/

namespace Tether
namespace Simplex
namespace Tableau

variable {α : Type}

/-- The row is ordered and speaks of parametric symbols only. -/
structure Admits (t : Tableau α) (r : Row α) : Prop where
  ordered : r.Ordered
  parametric : ∀ y ∈ r.symbols, t.Parametric y

/-- Every row of the tableau speaks of parametric symbols only. -/
def Solved (t : Tableau α) : Prop :=
  ∀ id r, t.rowAt? id = some r → t.Admits r

section Rows

variable {t : Tableau α}

theorem admits_ofConstant (t : Tableau α) (x : α) : t.Admits (.ofConstant x) :=
  ⟨Row.ordered_ofConstant x, by simp⟩

theorem Admits.erase {r : Row α} (h : t.Admits r) (s : Symbol) : t.Admits (r.erase s) :=
  ⟨Row.ordered_erase h.ordered s,
    fun y hy => h.parametric y (Row.mem_of_mem_symbols_erase hy)⟩

theorem Admits.newSymbol {r : Row α} (h : t.Admits r) (kind : SymbolKind) :
    (t.newSymbol kind).2.Admits r :=
  ⟨h.ordered, fun y hy => (h.parametric y hy).newSymbol kind⟩

/-- No symbol of an admitted row is basic. -/
theorem Admits.isBasic_eq_false {r : Row α} (h : t.Admits r) {c : Cell α} (hc : c ∈ r.cells) :
    t.isBasic c.1 = false := by
  have hp := h.parametric c.1 (Row.mem_symbols_iff.mpr ⟨c.2, hc⟩)
  rw [isBasic, hp.2]
  rfl

theorem Solved.newSymbol (h : t.Solved) (kind : SymbolKind) :
    (t.newSymbol kind).2.Solved := by
  intro id r hr
  rw [rowAt?_newSymbol] at hr
  exact (h id r hr).newSymbol kind

variable [Scalar α]

theorem Admits.insert {r : Row α} (h : t.Admits r) {s : Symbol} (hs : t.Parametric s)
    (x : α) : t.Admits (r.insert s x) := by
  refine ⟨Row.ordered_insert h.ordered s x, ?_⟩
  intro y hy
  rcases Row.mem_symbols_insert hy with rfl | hy
  · exact hs
  · exact h.parametric y hy

theorem Admits.addRow {r other : Row α} (h : t.Admits r) (ho : t.Admits other) (x : α) :
    t.Admits (r.addRow other x) := by
  refine ⟨Row.ordered_addRow h.ordered other x, ?_⟩
  intro y hy
  exact (Row.mem_symbols_addRow hy).elim (h.parametric y) (ho.parametric y)

theorem Admits.shift {r : Row α} (h : t.Admits r) (x : α) : t.Admits (r.shift x) :=
  ⟨Row.ordered_shift h.ordered x, h.parametric⟩

theorem Admits.negate {r : Row α} (h : t.Admits r) : t.Admits r.negate := by
  refine ⟨Row.ordered_negate h.ordered, ?_⟩
  rw [Row.symbols_negate]
  exact h.parametric

theorem Admits.solveFor {r : Row α} (h : t.Admits r) (s : Symbol) :
    t.Admits (r.solveFor s) := by
  refine ⟨Row.ordered_solveFor h.ordered s, ?_⟩
  rw [Row.symbols_solveFor]
  exact (h.erase s).parametric

theorem Admits.substitute {r q : Row α} (h : t.Admits r) (hq : t.Admits q) (s : Symbol) :
    t.Admits (r.substitute s q) := by
  refine ⟨Row.ordered_substitute h.ordered s q, ?_⟩
  intro y hy
  rcases h.ordered.mem_symbols_substitute hy with ⟨hy, -⟩ | ⟨-, hy⟩
  · exact h.parametric y hy
  · exact hq.parametric y hy

end Rows

section Changes

variable {t t' : Tableau α}

/-- A tableau admits what another one admits if no symbol of the row has
gained a row. -/
theorem Admits.of_parametric {r : Row α} (h : t.Admits r)
    (hp : ∀ y ∈ r.symbols, t.Parametric y → t'.Parametric y) : t'.Admits r :=
  ⟨h.ordered, fun y hy => hp y hy (h.parametric y hy)⟩

theorem Parametric.erase {y : Symbol} (h : t.Parametric y) (x : Symbol) :
    (t.erase x).Parametric y := by
  refine ⟨by unfold Knows; rw [kindAt?_erase]; exact h.1, ?_⟩
  rw [row?, rowAt?_erase]
  split
  · rfl
  · exact h.2

theorem parametric_erase_self {x : Symbol} (h : t.Knows x) : (t.erase x).Parametric x := by
  refine ⟨by unfold Knows; rw [kindAt?_erase]; exact h, ?_⟩
  rw [row?, rowAt?_erase, if_pos rfl]

theorem Parametric.insert {x y : Symbol} (h : t.Parametric y) (hx : t.Knows x) (hne : y ≠ x)
    (r : Row α) : (t.insert x r).Parametric y := by
  refine ⟨by unfold Knows; rw [kindAt?_insert]; exact h.1, ?_⟩
  have hid : x.id ≠ y.id := fun he => hne (h.1.eq_of_id_eq hx he.symm)
  rw [row?, rowAt?_insert, if_neg (by simp [hid])]
  exact h.2

theorem Solved.erase (h : t.Solved) (x : Symbol) : (t.erase x).Solved := by
  intro id r hr
  rw [rowAt?_erase] at hr
  split at hr
  · cases hr
  · exact (h id r hr).of_parametric (fun y _ hy => hy.erase x)

end Changes

end Tableau
end Simplex
end Tether
